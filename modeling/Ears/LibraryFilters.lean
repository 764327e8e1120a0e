/-
# Library filters (`pkg/filter/`)

The filters that rewrite the data of an event: `transform`, `mapping`, `merge`, `unwrap`,
`encode`, `decode`, `hash`, `modify`, `regex` and `trace`, and with `split` and `js` the
filters a chain is built from.  `Chain.filter` is the loop that takes an event through the
filters of a route.

Most of them end alike: they call `DeepCopy` and write one value (`store`).  Three differ.
`modify` writes without `DeepCopy`; `unwrap` and `merge` call it, but put back into the event
what they took out of it before.

A configuration is given after `WithDefaults`.  Loops and recursions without a bound in the
source go on for `lib.depth` rounds and stop there.
-/
import Ears.FanOut
import Ears.Md5

open GoLib

variable {κ ε ρ : Type}

/-! ## Texts with paths in braces -/

namespace GoLib

/-- `strings.HasSuffix`. -/
def hasSuffix (s ending : String) : Bool := ending.toList.isSuffixOf s.toList

/-- Where the first pair of braces is: there is none, the closing brace comes first, which
makes the slice expression of the source panic, or the texts before, between and after. -/
inductive Braces where
  | none
  | panic
  | found (before path after : List Char)
  deriving DecidableEq, Repr

/-- The first `{` and the first `}` of a text. -/
def findBraces (cs : List Char) : Braces :=
  if '{' ∉ cs ∨ '}' ∉ cs then .none
  else if cs.idxOf '}' < cs.idxOf '{' then .panic
  else
    .found (cs.take (cs.idxOf '{')) ((cs.take (cs.idxOf '}')).drop (cs.idxOf '{' + 1))
      (cs.drop (cs.idxOf '}' + 1))

example : findBraces "a\x7b.b\x7dc".toList = .found ['a'] ['.', 'b'] ['c'] := by decide

/-- The keys of a map value; a nil map has none. -/
def HeapProg.rangeOf : Value → HeapProg (List String)
  | .map r => HeapProg.keys r
  | _ => pure []

/-- `m[key]` of a map value, without the flag. -/
def HeapProg.lookup (m : Value) (key : String) : HeapProg Value :=
  match m with
  | .map r => do
      let v ← HeapProg.getKey r key
      pure (v.getD .nil)
  | _ => pure .nil

theorem HeapProg.run_lookup (order : Finset String → List String) (h : Heap) (r : Ref)
    (key : String) : (HeapProg.lookup (.map r) key).run (Heap.handle order) h =
      (some ((h.getKey r key).getD .nil), h) := rfl

end GoLib

namespace Event

/-- A value in the place of its path in a text: strings as they are, anything else as JSON. -/
def insertedText (lib : Libs κ) : Value → HeapProg (List Char)
  | .str s => pure s.toList
  | v => do
      match ← lib.marshal v with
      | .ok text => pure text.toList
      | .error _ => pure []

/-- The loop of `Evaluate` for a text. -/
def evaluateText (lib : Libs κ) (e : Event κ) : ℕ → List Char → HeapProg Found
  | 0, _ => Prog.panic
  | rounds + 1, expr =>
      match findBraces expr with
      | .none => pure (.str (String.ofList expr), .nil, "")
      | .panic => Prog.panic
      | .found before path after => do
          let (v, pr, ky) ← getPathValue lib e (String.ofList path)
          let v ← lib.deepCopy v
          if before = [] ∧ after = [] then pure (v, pr, ky)
          else
            let text ← insertedText lib v
            evaluateText lib e rounds (before ++ text ++ after)

/-- `Evaluate(expression)` for a text. -/
def evaluate (lib : Libs κ) (e : Event κ) (expression : String) : HeapProg Found :=
  evaluateText lib e lib.depth expression.toList

/-- The event that `event.New` makes for a part of the payload of another event. -/
def subEvent (lib : Libs κ) (evt : Event κ) (elem : Value) (tid : Tenant.Id) : Event κ where
  metadata := evt.metadata
  payload := elem
  ctx := lib.surroundings.subLoggerCtx evt.ctx
  subTree := none
  tid := tid
  eid := lib.surroundings.uuid
  userTraceId := if evt.userTraceId = "" then lib.surroundings.traceId else evt.userTraceId
  created := lib.surroundings.now
  response := lib.surroundings.response
  responseStatus := lib.surroundings.responseStatus

/-- It is what `New` returns for the options of the transform filter, and with no tenant for
those of the mapping filter. -/
theorem new_eq_subEvent (lib : Libs κ) (h : Heap) (evt : Event κ) (elem : Value) :
    Event.new (ε := ε) lib.surroundings h evt.ctx elem
        [.withMetadata evt.metadata, .withTenant evt.tid, .withUserTraceId evt.userTraceId] =
      .ok (h, .newAckTree, evt.subEvent lib elem evt.tid) ∧
    Event.new (ε := ε) lib.surroundings h evt.ctx elem
        [.withMetadata evt.metadata, .withUserTraceId evt.userTraceId] =
      .ok (h, .newAckTree, evt.subEvent lib elem ⟨"", ""⟩) := by
  unfold Event.new subEvent
  by_cases htrace : evt.userTraceId = ""
  · simp [applyOptions, applyOption, setMetadata, setContext, isSettled, htrace]
  · simp [applyOptions, applyOption, setMetadata, setContext, isSettled, htrace]

end Event

open Event.Calls

/-- `evt.Ack()` and no event, how filters leave an event they cannot work on. -/
def discard (evt : Event κ) : EventProg ε (List (Event κ)) := do
  ack evt
  pure []

/-- The end of the filters that write one value. -/
def store (lib : Libs κ) (evt : Event κ) (path : String) (output : Value) :
    EventProg ε (List (Event κ)) := do
  let evt ← (deepCopy lib evt).left
  match ← setPathValue evt path output true with
  | (evt, .error _) => discard evt
  | (evt, .ok _) => pure [evt]

/-- The path that is written to: `toPath`, or `fromPath` without one. -/
def targetPath (fromPath toPath : String) : String := if toPath ≠ "" then toPath else fromPath

/-! ## `transform` -/

namespace Transform

/-- `Config`. -/
structure Config where
  transformation : Value := .nil
  toPath : String := ""
  fromPath : String := ""
  deriving DecidableEq, Repr

/-- Where `transform` writes: the parameters `parent`, `key` and `idx`. -/
inductive Slot where
  | none
  | key (parent : Ref) (key : String)
  | index (parent : Ref) (idx : ℕ)
  deriving DecidableEq, Repr

/-- The write at the end of a round; under an empty key nothing is written. -/
def Slot.set (v : Value) : Slot → HeapProg Unit
  | .none => pure ()
  | .key parent name => if name ≠ "" then HeapProg.setKey parent name v else pure ()
  | .index parent idx => HeapProg.setIndex parent idx v

/-- The loop of `transform` over the braces of a text. -/
def transformText (lib : Libs κ) (evt : Event κ) (slot : Slot) : ℕ → List Char → HeapProg Unit
  | 0, _ => Prog.panic
  | rounds + 1, tt =>
      match findBraces tt with
      | .none => pure ()
      | .panic => Prog.panic
      | .found before path after => do
          let (v, _, _) ← Event.getPathValue lib evt (String.ofList path)
          let v ← lib.deepCopy v
          if before = [] ∧ after = [] then
            slot.set v
            -- the text is now empty, which ends the loop
            transformText lib evt slot rounds []
          else
            let text ← Event.insertedText lib v
            slot.set (.str (String.ofList (before ++ text ++ after)))
            transformText lib evt slot rounds (before ++ text ++ after)

/-- `transform(evt, t, parent, key, idx)`. -/
def transform (lib : Libs κ) (evt : Event κ) : ℕ → Value → Slot → HeapProg Unit
  | 0, _, _ => Prog.panic
  | depth + 1, .map r, _ => do
      let keys ← HeapProg.keys r
      keys.forM fun key => do
        let st ← HeapProg.lookup (.map r) key
        transform lib evt depth st (.key r key)
  | depth + 1, .slice r, _ => do
      let n ← HeapProg.len r
      (List.range n).forM fun idx => do
        let st ← HeapProg.index r idx
        transform lib evt depth st (.index r idx)
  | _ + 1, .str s, slot => transformText lib evt slot lib.depth s.toList
  | _ + 1, _, _ => pure ()

/-- One round of the loop of `Filter`: the transformation of one element. -/
def transformElement (lib : Libs κ) (c : Config) (evt : Event κ) (elem : Value) (path : String) :
    EventProg ε (Event κ × Except EventError (Value × String)) := do
  let thisTransform ← (lib.deepCopy c.transformation).left
  (transform lib (evt.subEvent lib elem evt.tid) lib.depth thisTransform .none).left
  setPathValue evt path thisTransform true

/-- The loop of `Filter` over the elements of an array. -/
def transformElements (lib : Libs κ) (c : Config) (arr : Ref) :
    List ℕ → Event κ → EventProg ε (List (Event κ))
  | [], evt => pure [evt]
  | idx :: rest, evt => do
      let elem ← (HeapProg.index arr idx).left
      match ← transformElement lib c evt elem (c.toPath ++ "[" ++ itoa idx ++ "]") with
      | (evt, .error _) => discard evt
      | (evt, .ok _) => transformElements lib c arr rest evt

/-- `Filter(evt)` of a transform filter. -/
def filter (lib : Libs κ) (c : Config) (evt : Event κ) : EventProg ε (List (Event κ)) :=
  if c.transformation = .nil then pure [evt]
  else do
    let evt ← (deepCopy lib evt).left
    let (obj, _, _) ← (Event.getPathValue lib evt c.fromPath).left
    match obj with
    | .slice arr =>
        let n ← (HeapProg.len arr).left
        transformElements lib c arr (List.range n) evt
    | _ =>
        match ← transformElement lib c evt obj c.toPath with
        | (evt, .error _) => discard evt
        | (evt, .ok _) => pure [evt]

end Transform

/-! ## `mapping` -/

namespace Mapping

/-- `Comparison`, with the entries of its maps in the order of a `range` over them. -/
structure Comparison where
  equal : List (List (String × Value)) := []
  notEqual : List (List (String × Value)) := []
  deriving DecidableEq, Repr

/-- `FromTo`. -/
structure FromTo where
  source : Value := .nil
  target : Value := .nil
  comparison : Option Comparison := none
  deriving DecidableEq, Repr

/-- `Config`. -/
structure Config where
  map : List FromTo := []
  path : String := ""
  arrayPath : String := ""
  defaultValue : Value := .nil
  deriving DecidableEq, Repr

/-- A value of the configuration: a text in braces is a path into the event. -/
def resolve (lib : Libs κ) (evt : Event κ) : Value → HeapProg Value
  | .str s =>
      if hasSuffix s "\x7d" && hasPrefix s "\x7b" then do
        let (v, _, _) ← Event.getPathValue lib evt (String.ofList s.toList.tail.dropLast)
        pure v
      else pure (.str s)
  | v => pure v

/-- The pairs are all equal, or all unequal. -/
def comparePairs (lib : Libs κ) (evt : Event κ) (equal : Bool) :
    List (String × Value) → HeapProg Bool
  | [] => pure true
  | (b, a) :: rest => do
      let aObj ← resolve lib evt a
      let bObj ← resolve lib evt (.str b)
      if (← lib.deepEqual aObj bObj) = equal then comparePairs lib evt equal rest
      else pure false

/-- `compare(evt, cmp)`. -/
def compare (lib : Libs κ) (evt : Event κ) : Option Comparison → HeapProg Bool
  | none => pure true
  | some cmp => do
      if ← comparePairs lib evt true cmp.equal.flatten then
        comparePairs lib evt false cmp.notEqual.flatten
      else pure false

/-- The event of the filter, and in an array the index and the event of the element. -/
structure Cursor (κ : Type) where
  evt : Event κ
  elem : Option (ℕ × Event κ)

/-- `currEvent`, which is the event itself outside of an array. -/
def Cursor.currEvent (c : Cursor κ) : Event κ :=
  match c.elem with
  | some (_, e) => e
  | none => c.evt

/-- The writes for a value that was mapped to; their errors are ignored. -/
def put (lib : Libs κ) (c : Config) (cur : Cursor κ) (val : Value) : EventProg ε (Cursor κ) := do
  let v ← (lib.deepCopy val).left
  match cur.elem with
  | some (idx, currEvent) => do
      let (currEvent, _) ← setPathValue currEvent c.path v true
      let (evt, _) ←
        setPathValue cur.evt (c.arrayPath ++ "[" ++ itoa idx ++ "]") currEvent.payload true
      pure ⟨evt, some (idx, currEvent)⟩
  | none => do
      let (evt, _) ← setPathValue cur.evt c.path v true
      pure ⟨evt, none⟩

/-- The loop over the entries of the map; `mapped` says that one of them was used. -/
def mapEntries (lib : Libs κ) (c : Config) (obj : Value) :
    List FromTo → Cursor κ → Bool → EventProg ε (Cursor κ × Bool)
  | [], cur, mapped => pure (cur, mapped)
  | m :: rest, cur, mapped => do
      let source ← (resolve lib cur.currEvent m.source).left
      let target ← (resolve lib cur.currEvent m.target).left
      if ← (lib.deepEqual obj source).left then
        if ← (compare lib cur.currEvent m.comparison).left then
          let cur ← put lib c cur target
          mapEntries lib c obj rest cur true
        else mapEntries lib c obj rest cur mapped
      else mapEntries lib c obj rest cur mapped

/-- One round of the loop of `Filter`. -/
def mapElement (lib : Libs κ) (c : Config) (cur : Cursor κ) : EventProg ε (Cursor κ) := do
  let (obj, _, _) ← (Event.getPathValue lib cur.currEvent c.path).left
  let (cur, mapped) ← mapEntries lib c obj c.map cur false
  if !mapped && c.defaultValue != .nil then
    let defVal ← (resolve lib cur.currEvent c.defaultValue).left
    put lib c cur defVal
  else pure cur

/-- The loop of `Filter` over the elements of an array. -/
def mapElements (lib : Libs κ) (c : Config) (arr : Ref) :
    List ℕ → Event κ → EventProg ε (Event κ)
  | [], evt => pure evt
  | idx :: rest, evt => do
      let aElem ← (HeapProg.index arr idx).left
      let cur ← mapElement lib c ⟨evt, some (idx, evt.subEvent lib aElem ⟨"", ""⟩)⟩
      mapElements lib c arr rest cur.evt

/-- `Filter(evt)` of a mapping filter. -/
def filter (lib : Libs κ) (c : Config) (evt : Event κ) : EventProg ε (List (Event κ)) := do
  let evt ← (deepCopy lib evt).left
  let (elem, _, _) ← (Event.getPathValue lib evt c.arrayPath).left
  match elem with
  | .slice arr =>
      let n ← (HeapProg.len arr).left
      let evt ← mapElements lib c arr (List.range n) evt
      pure [evt]
  | _ =>
      let cur ← mapElement lib c ⟨evt, none⟩
      pure [cur.evt]

end Mapping

/-! ## `merge` and `unwrap` -/

namespace Merge

/-- `Config`. -/
structure Config where
  toPath : String := ""
  fromPath : String := ""
  deriving DecidableEq, Repr

/-- The loop of `merge` over the entries of `a`, with the merge of two values. -/
def mergeEntries (merge : Value → Value → HeapProg Value) (a : Value) (bc : Ref) :
    List String → HeapProg Unit
  | [] => pure ()
  | k :: ks => do
      let va ← HeapProg.lookup a k
      let vb ← HeapProg.lookup (.map bc) k
      let v ← merge va vb
      HeapProg.setKey bc k v
      mergeEntries merge a bc ks

/-- `merge(a, b)`: a new map for two maps, a new array for two arrays, and otherwise one of
the two values itself. -/
def merge : ℕ → Value → Value → HeapProg Value
  | 0, _, _ => Prog.panic
  | depth + 1, a, b =>
      if a = .nil then pure b
      else if b = .nil then pure a
      else if Js.isObject a && Js.isObject b then do
        let bc ← HeapProg.makeMap
        let keys ← HeapProg.rangeOf b
        keys.forM fun k => do
          let v ← HeapProg.lookup b k
          HeapProg.setKey bc k v
        let keys ← HeapProg.rangeOf a
        mergeEntries (merge depth) a bc keys
        pure (.map bc)
      else
        match a, b with
        | .slice x, .slice y => do
            let n ← HeapProg.len x
            let xs ← HeapProg.elems x (List.range n)
            let m ← HeapProg.len y
            let ys ← HeapProg.elems y (List.range m)
            Value.slice <$> HeapProg.makeSlice (xs ++ ys)
        | _, _ => pure b

/-- `Filter(evt)` of a merge filter. -/
def filter (lib : Libs κ) (c : Config) (evt : Event κ) : EventProg ε (List (Event κ)) := do
  let (fromObj, _, _) ← (Event.getPathValue lib evt c.fromPath).left
  let (toObj, _, _) ← (Event.getPathValue lib evt c.toPath).left
  let mergeObj ← (merge lib.depth fromObj toObj).left
  store lib evt c.toPath mergeObj

end Merge

namespace Unwrap

/-- `Config`. -/
structure Config where
  path : String := ""
  deriving DecidableEq, Repr

/-- `Filter(evt)` of an unwrap filter. -/
def filter (lib : Libs κ) (c : Config) (evt : Event κ) : EventProg ε (List (Event κ)) := do
  let (obj, _, _) ← (Event.getPathValue lib evt c.path).left
  if obj = .nil then discard evt
  else
    let evt ← (deepCopy lib evt).left
    match ← setPayload evt obj with
    | (evt, .error _) => discard evt
    | (evt, .ok ()) => pure [evt]

end Unwrap

/-! ## `encode` and `decode` -/

namespace Encode

/-- `Config`; the field `Encoding` is not read. -/
structure Config where
  fromPath : String := ""
  toPath : String := ""
  deriving DecidableEq, Repr

/-- `Filter(evt)` of an encode filter. -/
def filter (lib : Libs κ) (c : Config) (evt : Event κ) : EventProg ε (List (Event κ)) := do
  let (obj, _, _) ← (Event.getPathValue lib evt c.fromPath).left
  if obj = .nil then discard evt
  else
    match ← (lib.marshal obj).left with
    | .error _ => discard evt
    | .ok buf =>
        store lib evt (targetPath c.fromPath c.toPath) (.str (Tenant.encodeToString buf))

end Encode

namespace Decode

/-- `Config`. -/
structure Config where
  fromPath : String := ""
  toPath : String := ""
  encoding : String := "base64"
  deriving DecidableEq, Repr

/-- The bytes to parse, for a text or for bytes. -/
def decoded (lib : Libs κ) (c : Config) (input : List UInt8) : Except String (List UInt8) :=
  if c.encoding = "base64" then lib.decodeBase64 input else .ok input

/-- `Filter(evt)` of a decode filter, once the input is known. -/
def decodeInput (lib : Libs κ) (c : Config) (evt : Event κ) (input : List UInt8) :
    EventProg ε (List (Event κ)) :=
  match decoded lib c input with
  | .error _ => discard evt
  | .ok buf => do
      match ← (lib.unmarshal buf).left with
      | .error _ => discard evt
      | .ok output => store lib evt (targetPath c.fromPath c.toPath) output

/-- `Filter(evt)` of a decode filter. -/
def filter (lib : Libs κ) (c : Config) (evt : Event κ) : EventProg ε (List (Event κ)) := do
  let (obj, _, _) ← (Event.getPathValue lib evt c.fromPath).left
  match obj with
  | .str s => decodeInput lib c evt s.toUTF8.data.toList
  | .bytes b => decodeInput lib c evt b
  | _ => discard evt

end Decode

/-! ## `hash`, `regex` and `trace` -/

namespace Hash

/-- `Config`. -/
structure Config where
  fromPath : String := ""
  source : String := ""
  toPath : String := ""
  hashAlgorithm : String := "md5"
  key : String := ""
  encoding : String := ""
  deriving DecidableEq, Repr

/-- The value to hash. -/
def hashed (lib : Libs κ) (c : Config) (evt : Event κ) : HeapProg Event.Found :=
  if c.source ≠ "" then evt.evaluate lib c.source else Event.getPathValue lib evt c.fromPath

/-- The bytes of the value. -/
def hashBytes (lib : Libs κ) : Value → HeapProg (Except String (List UInt8))
  | .str s => pure (.ok s.toUTF8.data.toList)
  | .bytes b => pure (.ok b)
  | v => do
      match ← lib.marshal v with
      | .ok text => pure (.ok text.toUTF8.data.toList)
      | .error err => pure (.error err)

/-- The hash of the bytes; the error is the one that is logged. -/
def hashOutput (lib : Libs κ) (c : Config) (buf : List UInt8) : Except String Value :=
  if c.hashAlgorithm = "fnv" then .ok (.num (itoa (lib.fnv32a buf)))
  else if c.hashAlgorithm ∈ ["md5", "sha1", "sha256"] then
    .ok (.bytes (lib.digest c.hashAlgorithm "" buf))
  else if c.hashAlgorithm ∈ ["hmac-md5", "hmac-sha1", "hmac-sha256"] then
    if c.key = "" then .error "key required for hmac"
    else .ok (.bytes (lib.digest c.hashAlgorithm c.key buf))
  else .error ("unsupported hashing algorithm " ++ c.hashAlgorithm)

/-- The encoding of the hash; `none` is the panic of `output.([]byte)` on a number. -/
def encodeOutput (c : Config) (output : Value) : Option Value :=
  if c.encoding = "base64" ∨ c.encoding = "hex" then
    match output with
    | .bytes b =>
        if c.encoding = "base64" then some (.str (String.ofList (Base64.encode b)))
        else some (.str (String.ofList (b.flatMap fun n => Md5.hexByte n.toNat)))
    | _ => none
  else some output

/-- `Filter(evt)` of a hash filter. -/
def filter (lib : Libs κ) (c : Config) (evt : Event κ) : EventProg ε (List (Event κ)) := do
  let (obj, _, _) ← (hashed lib c evt).left
  if obj = .nil then discard evt
  else
    match ← (hashBytes lib obj).left with
    | .error _ => discard evt
    | .ok buf =>
        match hashOutput lib c buf with
        | .error _ => discard evt
        | .ok output =>
            match encodeOutput c output with
            | none => Prog.panic
            | some output => store lib evt (targetPath c.fromPath c.toPath) output

end Hash

namespace Regex

/-- `Config`. -/
structure Config where
  fromPath : String := ""
  toPath : String := ""
  regex : String := "^.*$"
  replaceAllString : Option String := none
  deriving DecidableEq, Repr

/-- The value as a text. -/
def objAsStr (lib : Libs κ) : Value → HeapProg (Except String String)
  | .str s => pure (.ok s)
  | .bytes b => pure (.ok (lib.text b))
  | v => lib.marshal v

/-- The text to write. -/
def output (c : Config) (r : Regexp) (text : String) : String :=
  match c.replaceAllString with
  | some repl => r.replaceAllString text repl
  | none => r.findString text

/-- `Filter(evt)` of a regex filter. -/
def filter (lib : Libs κ) (c : Config) (evt : Event κ) : EventProg ε (List (Event κ)) := do
  let (obj, _, _) ← (Event.getPathValue lib evt c.fromPath).left
  if obj = .nil then
    -- for the log
    let _ ← (lib.marshal evt.payload).left
    discard evt
  else
    match ← (objAsStr lib obj).left with
    | .error _ => discard evt
    | .ok text =>
        match lib.compileRegexp c.regex with
        | .error _ => discard evt
        | .ok r => store lib evt (targetPath c.fromPath c.toPath) (.str (output c r text))

end Regex

namespace Trace

/-- `Config`. -/
structure Config where
  path : String := ""
  deriving DecidableEq, Repr

/-- `Filter(evt)` of a trace filter. -/
def filter (lib : Libs κ) (c : Config) (evt : Event κ) : EventProg ε (List (Event κ)) :=
  store lib evt c.path (.str (lib.traceId evt.ctx))

end Trace

/-! ## `modify` -/

namespace Modify

/-- `Config`. -/
structure Config where
  path : String := ""
  paths : List String := []
  toUpper : Bool := false
  toLower : Bool := false
  deriving DecidableEq, Repr

/-- `allPaths`. -/
def allPaths (c : Config) : List String := (if c.path ≠ "" then [c.path] else []) ++ c.paths

/-- The loop of `Filter` over the paths. -/
def modifyPaths (lib : Libs κ) (c : Config) : List String → Event κ → EventProg ε (Event κ)
  | [], evt => pure evt
  | p :: rest, evt => do
      let (obj, _, _) ← (Event.getPathValue lib evt p).left
      match obj with
      | .str s =>
          if c.toUpper then
            let (evt, _) ← setPathValue evt p (.str (lib.toUpper s)) false
            modifyPaths lib c rest evt
          else if c.toLower then
            let (evt, _) ← setPathValue evt p (.str (lib.toLower s)) false
            modifyPaths lib c rest evt
          else modifyPaths lib c rest evt
      | _ => modifyPaths lib c rest evt

/-- `Filter(evt)` of a modify filter. -/
def filter (lib : Libs κ) (c : Config) (evt : Event κ) : EventProg ε (List (Event κ)) := do
  let evt ← modifyPaths lib c (allPaths c) evt
  pure [evt]

end Modify

/-! ## Chains -/

/-- A library filter with its configuration; for `js` the script that the source compiles
to, or the error of its compilation. -/
inductive Filterer (ρ : Type) where
  | transform (c : Transform.Config)
  | mapping (c : Mapping.Config)
  | merge (c : Merge.Config)
  | unwrap (c : Unwrap.Config)
  | encode (c : Encode.Config)
  | decode (c : Decode.Config)
  | hash (c : Hash.Config)
  | modify (c : Modify.Config)
  | regex (c : Regex.Config)
  | trace (c : Trace.Config)
  | split (path : String)
  | js (code : Except String (Js.Script ρ))

/-- `Filter(evt)`. -/
def Filterer.filter (lib : Libs κ) : Filterer ρ → Event κ → EventProg ε (List (Event κ))
  | .transform c => Transform.filter lib c
  | .mapping c => Mapping.filter lib c
  | .merge c => Merge.filter lib c
  | .unwrap c => Unwrap.filter lib c
  | .encode c => Encode.filter lib c
  | .decode c => Decode.filter lib c
  | .hash c => Hash.filter lib c
  | .modify c => Modify.filter lib c
  | .regex c => Regex.filter lib c
  | .trace c => Trace.filter lib c
  | .split path => Split.filter lib path
  | .js code => Js.filter lib code

namespace Chain

/-- The loop of `Filter` over the queue, an event with the filters that are left for it.
The context of the event ends after `alive` rounds, and then nothing is returned. -/
def filterQueue (lib : Libs κ) :
    ℕ → List (Event κ × List (Filterer ρ)) → List (Event κ) → EventProg ε (List (Event κ))
  | _, [], events => pure events
  | 0, _ :: _, _ => pure []
  | alive + 1, (e, []) :: queue, events => filterQueue lib alive queue (events ++ [e])
  | alive + 1, (e, f :: fs) :: queue, events => do
      let evts ← f.filter lib e
      if fs = [] then filterQueue lib alive queue (events ++ evts)
      else filterQueue lib alive (queue ++ evts.map fun e => (e, fs)) events

/-- `Filter(e)` of a chain: without filters the event passes. -/
def filter (lib : Libs κ) (alive : ℕ) (filterers : List (Filterer ρ)) (e : Event κ) :
    EventProg ε (List (Event κ)) :=
  if filterers = [] then pure [e] else filterQueue lib alive [(e, filterers)] []

end Chain
