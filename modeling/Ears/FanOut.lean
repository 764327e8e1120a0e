/-
# Filters that make events (`pkg/filter/split/split.go`, `pkg/filter/js/`)

`split` clones its event once for each element of an array and acks it.  `js` runs a script
on copies of payload and metadata; the script returns nothing, one object that replaces the
event's data, or an array of objects, one clone for each.

A script is a parameter: what compiling gives, and for each execution a program over the
maps that `Exec` puts into the script's environment, with the exported result.  Whatever
the script leaves behind in its runtime is a further result `ρ`.
-/
import Ears.EventPrograms

open GoLib

variable {κ ε ρ : Type}

namespace Split

open Event.Calls

/-- The loop of `Filter` over the elements, with the events made so far. -/
def splitElements (lib : Libs κ) (evt : Event κ) (arr : Ref) :
    List ℕ → List (Event κ) → EventProg ε (List (Event κ))
  | [], events => do
      ack evt
      pure events
  | i :: is, events => do
      let p ← (HeapProg.index arr i).left
      match ← clone evt evt.ctx with
      | .error _ =>
          ack evt
          pure []
      | .ok nevt =>
          match ← setPayload nevt p with
          | (_, .error _) =>
              ack evt
              pure []
          | (nevt, .ok ()) =>
              let metadata ← (copyMetadata lib evt).left
              let (nevt, _) ← setMetadata nevt metadata
              splitElements lib evt arr is (events ++ [nevt])

/-- `Filter(evt)` of a split filter. -/
def filter (lib : Libs κ) (path : String) (evt : Event κ) : EventProg ε (List (Event κ)) := do
  let (obj, _, _) ← (Event.getPathValue lib evt path).left
  match obj with
  | .slice arr =>
      let n ← (HeapProg.len arr).left
      splitElements lib evt arr (List.range n) []
  | _ =>
      -- nothing or no array at the path
      ack evt
      pure []

end Split

namespace Js

open Event.Calls

/-- What `v.Export()` gives: a goja value, an interrupt, a value as from JSON, or anything
else a script can return. -/
inductive Exported where
  | gojaValue
  | interruptedError
  | value (v : Value)
  | other
  deriving DecidableEq, Repr

/-- A script with the payload, the metadata and the event map of its environment. -/
abbrev Script (ρ : Type) := Value → Value → Value → HeapProg (ρ × Except String Exported)

/-- `v.(map[string]interface{})`; `none` is the panic of a failed assertion. -/
def asMap : Option Value → Option (Option Ref)
  | some (.map r) => some (some r)
  | some .nilMap => some none
  | _ => none

/-- `evt.SetPayload(m["payload"])` and `evt.SetMetadata(m["metadata"].(map...))`. -/
def setData (evt : Event κ) (m : Value) : EventProg ε (Event κ × Except EventError Unit) := do
  let get (key : String) : HeapProg (Option Value) :=
    match m with
    | .map r => HeapProg.getKey r key
    | _ => pure none
  let payload ← (get "payload").left
  match ← setPayload evt (payload.getD .nil) with
  | (evt, .error err) => pure (evt, .error err)
  | (evt, .ok ()) =>
      match asMap (← (get "metadata").left) with
      | none => Prog.panic
      | some metadata => setMetadata evt metadata

/-- The value is a map. -/
def isObject : Value → Bool
  | .map _ => true
  | .nilMap => true
  | _ => false

/-- The loop of `Exec` over the elements of an array, with the events made so far. -/
def execElements (evt : Event κ) (arr : Ref) :
    List ℕ → List (Event κ) → EventProg ε (Except EventError (List (Event κ)))
  | [], events => pure (.ok events)
  | i :: is, events => do
      let m ← (HeapProg.index arr i).left
      if isObject m then
        match ← clone evt evt.ctx with
        | .error err => pure (.error err)
        | .ok nevt =>
            match ← setData nevt m with
            | (_, .error err) => pure (.error err)
            | (nevt, .ok ()) => execElements evt arr is (events ++ [nevt])
      else pure (.error (.other "array element is not map"))

/-- An object replaces the data of the event. -/
def execObject (evt : Event κ) (m : Value) :
    EventProg ε (Event κ × Except EventError (List (Event κ))) := do
  match ← setData evt m with
  | (evt, .error err) => pure (evt, .error err)
  | (evt, .ok ()) => pure (evt, .ok [evt])

/-- The last part of `Exec`: the events for what the script returned. -/
def execResult (evt : Event κ) :
    Except String Exported → EventProg ε (Event κ × Except EventError (List (Event κ)))
  | .error err => pure (evt, .error (.other err))
  | .ok .gojaValue => pure (evt, .ok [])
  | .ok .interruptedError => pure (evt, .ok [])
  | .ok (.value .nil) => pure (evt, .ok [])
  | .ok (.value (.slice arr)) => do
      let n ← (HeapProg.len arr).left
      let res ← execElements evt arr (List.range n) []
      pure (evt, res)
  | .ok (.value m) =>
      if isObject m then execObject evt m
      else pure (evt, .error (.other "script returns unsupported type"))
  | .ok .other => pure (evt, .error (.other "script returns unsupported type"))

/-- A copy of data for the script, an empty map for nothing. -/
def scriptData (lib : Libs κ) (absent : Bool) (v : Value) : HeapProg Value :=
  if absent then Value.map <$> HeapProg.makeMap else lib.deepCopy v

/-- The part of `Exec` that fills the environment and runs the script. -/
def runScript (lib : Libs κ) (script : Script ρ) (evt : Event κ) :
    HeapProg (ρ × Except String Exported) := do
  let payload ← scriptData lib (evt.payload == .nil) evt.payload
  let metadata ← scriptData lib evt.metadata.isNone evt.metadataValue
  let event ← HeapProg.makeMap
  HeapProg.setKey event "payload" payload
  HeapProg.setKey event "metadata" metadata
  script payload metadata (.map event)

/-- `Exec(evt, code)`, where `code` is the script or the error of its compilation. -/
def exec (lib : Libs κ) (code : Except String (Script ρ)) (evt : Event κ) :
    EventProg ε (Event κ × Except EventError (List (Event κ))) :=
  match code with
  | .error err => pure (evt, .error (.other err))
  | .ok script => do
      let (_, outcome) ← (runScript lib script evt).left
      execResult evt outcome

/-- `Filter(evt)` of a js filter. -/
def filter (lib : Libs κ) (code : Except String (Script ρ)) (evt : Event κ) :
    EventProg ε (List (Event κ)) := do
  match ← exec lib code evt with
  | (evt, .error _) =>
      ack evt
      pure []
  | (evt, .ok []) =>
      ack evt
      pure []
  | (_, .ok events) => pure events

end Js
