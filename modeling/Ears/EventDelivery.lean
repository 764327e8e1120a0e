/-
# Events on their way to the routes (`internal/pkg/plugin/manager.go`, `pkg/route/route.go`)

`next` hands an event of a receiver to every route that has registered for it: it clones the
event once for each route, starts a goroutine with the clone, and acks the event.  A route
takes its clone through its filters and starts one goroutine for each event that comes out,
which calls the sender.

The goroutines share the heap and the ack tree.  `Delivery.machine` says what their calls do:

* a map or slice that a route makes gets an address of that route, so that addresses do not
  depend on what other routes have made; addresses below `heap.next` came with the event;
* a route names the nodes of the ack tree by their position below the node of its clone;
* a route can take steps once the node of its clone exists.

Senders are a parameter: any program over the event that is sent.
-/
import Ears.AckSubtree
import Ears.FilterScope

open GoLib

/-! ## The shared state -/

/-- What the goroutines share; `made` counts the objects that each route has made. -/
structure Store where
  heap : Heap
  made : ℕ → ℕ
  tree : AckTree EventError

namespace Store

/-- The address of the next object of a route. -/
def fresh (s : Store) (w : ℕ) : Ref := s.heap.next + Nat.pair w (s.made w)

/-- A new map at the next address of a route. -/
def makeMap (s : Store) (w : ℕ) : Store where
  heap := { s.heap with maps := Function.update s.heap.maps (s.fresh w) ∅ }
  made := Function.update s.made w (s.made w + 1)
  tree := s.tree

/-- A new slice at the next address of a route. -/
def makeSlice (s : Store) (w : ℕ) (vs : List Value) : Store where
  heap := { s.heap with slices := Function.update s.heap.slices (s.fresh w) vs }
  made := Function.update s.made w (s.made w + 1)
  tree := s.tree

/-- The operations of one route on maps and slices. -/
def handleHeap (order : Finset String → List String) (w : ℕ) : Handler heapSig Store
  | .getKey r key, s => (s.heap.getKey r key, s)
  | .setKey r key val, s => ((), { s with heap := s.heap.setKey r key val })
  | .keys r, s => (order (s.heap.maps r).keys, s)
  | .len r, s => ((s.heap.slices r).length, s)
  | .index r i, s => ((s.heap.slices r).getD i .nil, s)
  | .setIndex r i val, s => ((), { s with heap := s.heap.setIndex r i val })
  | .makeMap, s => (s.fresh w, s.makeMap w)
  | .makeSlice vs, s => (s.fresh w, s.makeSlice w vs)

/-- A call on the tree; on a node that does not exist it does nothing. -/
def act (s : Store) (op : AckTree.Op EventError) : Store :=
  match s.tree.step op with
  | some t => { s with tree := t }
  | none => s

/-- The ack operations of one goroutine, with nodes named by their position below `c`. -/
def handleBelow (c : NodeId) : Handler (ackSig EventError) Store
  | .isAcked n, s => (s.tree.isAcked (n ++ c), s)
  | .newSubTree n, s =>
      (if s.tree.Created (n ++ c) then
          (s.tree.newSubTree (n ++ c)).2.map fun child => child.take (n.length + 1)
        else .error .alreadyAckedError,
        s.act (.newSubTree (n ++ c)))
  | .ack n, s => ((), s.act (.ack (n ++ c)))
  | .nack n err, s => ((), s.act (.nack (n ++ c) err))

/-- The ack operations for an event without a node, which are never called. -/
def handleNone : Handler (ackSig EventError) Store
  | .isAcked _, s => (false, s)
  | .newSubTree _, s => (.error .alreadyAckedError, s)
  | .ack _, s => ((), s)
  | .nack _ _, s => ((), s)

/-- The operations of one goroutine. -/
def handle (order : Finset String → List String) (w : ℕ) (root : Option NodeId) :
    Handler (heapSig.sum (ackSig EventError)) Store
  | .inl o, s => handleHeap order w o s
  | .inr o, s => (root.elim handleNone handleBelow) o s

end Store

/-! ## Routes -/

variable {κ ρ : Type}

/-- The function of a route that `next` calls, with what decides its steps besides the data:
`alive` is how many filters run before the context ends, `turns` how the goroutines of its
sender take turns. -/
structure NextFn (κ ρ : Type) where
  wid : ℕ
  ctx : κ
  filterers : List (Filterer ρ)
  send : Event κ → EventProg EventError Unit
  alive : ℕ
  turns : List ℕ

/-- The function on one event: the filters, then `fanOut`. -/
def NextFn.run (lib : Libs κ) (fn : NextFn κ ρ) (evt : Event κ) : EventProg EventError Unit := do
  let events ← Chain.filter lib fn.alive fn.filterers evt
  Prog.par fn.turns (events.map fn.send)

/-- `Send(e)` of the debug sender, up to the write to its destination. -/
def Debug.send (lib : Libs κ) (evt : Event κ) : EventProg EventError Unit := do
  match ← (lib.marshal evt.payload).left with
  | .error err => Event.Calls.nack evt (.other err)
  | .ok _ => Event.Calls.ack evt

/-! ## Deliveries -/

/-- An event that `next` hands to routes: the functions under the key of the receiver in the
order in which `range` visits them, and the heap and the tree at that moment.  The event has
not been acked, its data and everything reached from it is in the heap. -/
structure Delivery (κ ρ : Type) where
  lib : Libs κ
  order : Finset String → List String
  heap : Heap
  tree : AckTree EventError
  evt : Event κ
  nextFns : List (NextFn κ ρ)
  wids : (nextFns.map NextFn.wid).Nodup
  history : List (AckTree.Op EventError)
  sound : Runs.run AckTree.step .newAckTree history = some tree
  unacked : ∀ n ∈ evt.subTree, tree.Created n ∧ tree.isAcked n = false
  closed : ∀ r, heap.HoldsIn (· < heap.next) r
  evt_in : evt.In (· < heap.next)

/-- The loop of `next`; the goroutine that gets the clone is a thread of its own. -/
def nextLoop (evt : Event κ) : List (NextFn κ ρ) → EventProg EventError Unit
  | [] => Event.Calls.ack evt
  | fn :: rest => do
      match ← Event.Calls.clone evt fn.ctx with
      | .error err => Event.Calls.nack evt err
      | .ok _ => pure ()
      nextLoop evt rest

namespace Delivery

variable (d : Delivery κ ρ)

/-- The place of a route in the order of the clones. -/
def position (w : ℕ) : ℕ := d.nextFns.findIdx fun fn => fn.wid = w

/-- The node of the clone that a route gets: a child of the event's node for each route, with
numbers in the order of the clones. -/
def root (w : ℕ) : Option NodeId :=
  d.evt.subTree.map fun n => ((d.tree.node n).numAckExpected - 1 + d.position w) :: n

/-- The event with its node as the root of all names. -/
def event : Event κ := { d.evt with subTree := d.evt.subTree.map fun _ => [] }

/-- The clone that a route gets. -/
def clone (fn : NextFn κ ρ) : Event κ := { d.event with ctx := fn.ctx, deepcopied := false }

/-- The threads: `none` is `next`, `some w` the route that has registered under `w`. -/
def machine : Machine (heapSig.sum (ackSig EventError)) (Option ℕ) Store where
  handle
    | none => Store.handle d.order 0 d.evt.subTree
    | some w => Store.handle d.order w (d.root w)
  started s
    | none => true
    | some w => (d.root w).all fun c => decide (s.tree.Created c)

/-- The beginning of a delivery. -/
def start : Threads (heapSig.sum (ackSig EventError)) (Option ℕ) Unit Store where
  state := ⟨d.heap, fun _ => 0, d.tree⟩
  prog
    | none => nextLoop d.event d.nextFns
    | some w =>
        match d.nextFns.find? fun fn => fn.wid = w with
        | some fn => fn.run d.lib (d.clone fn)
        | none => pure ()
  log := fun _ => []

/-- One step of a delivery. -/
abbrev step := Threads.step (α := Unit) d.machine

/-- The delivery of the same event to one route only. -/
def only (fn : NextFn κ ρ) : Delivery κ ρ where
  __ := d
  nextFns := [fn]
  wids := List.nodup_singleton _

end Delivery
