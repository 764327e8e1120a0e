/-
# Ack trees (`internal/pkg/ack/ack.go`)

An ack tree collects the acknowledgements of one unit of work.  `NewAckTree` makes
the root, `NewSubTree` adds a child below any node that has not acked itself, and
`Ack`/`Nack` report the outcome of one node.  A node counts its own ack and one ack
for each child that is complete; when the count reaches `numAckExpected` the node is
complete and acks its parent, and a complete root starts `completedFn`.  A nack
travels up to the root and starts `errFn`; so does the end of the context.

Nodes are named by their position: the root is `[]` and the child number `i` of `p`
is `i :: p`, so that the source's `parent` pointer is the tail of the list and the
recursion of `ack` is structural.  Children are numbered in the order in which
`NewSubTree` makes them.

Every method holds its node's lock until it returns and takes the parent's lock while
it holds the child's, so a call keeps all the locks it has taken until its last one
is taken: calls on one tree are serialisable, and a run of the tree is a list of
whole calls (`Op`), with the end of the context as one more action.

The functions `completedFn` and `errFn` are present: `event.WithAck`, the only caller
of `NewAckTree`, refuses to build an event when one of them is nil.
-/
import Ears.Runs

/-- A node of an ack tree: the child indices from the node up to the root. -/
abbrev NodeId := List ℕ

/-- The errors given to `errFn`: a `NackError` wraps the caller's error, a
`TimeoutError` reports the end of the context. -/
inductive AckError (ε : Type) where
  | nackError (err : ε)
  | timeoutError
  deriving DecidableEq, Repr

/-- A call started with `go`: the completion function or the error function. -/
inductive Invocation (ε : Type) where
  | completedFn
  | errFn (err : AckError ε)
  deriving DecidableEq, Repr

/-- The error of `NewSubTree` and of the guarded event operations. -/
inductive AlreadyAckedError where
  | alreadyAckedError
  deriving DecidableEq, Repr

/-- The mutable fields of an `ackTree` node, with the values a new node has. -/
structure AckNode where
  numAckExpected : ℕ := 1
  count : ℕ := 0
  selfAcked : Bool := false
  completed : Bool := false
  deriving DecidableEq, Repr

/-- An ack tree: the fields of its nodes, the functions it has started so far and the
counter of the wait group that `Wait` blocks on. -/
structure AckTree (ε : Type) where
  node : NodeId → AckNode
  invoked : List (Invocation ε)
  wg : ℤ

namespace AckTree

variable {ε : Type}

/-! ## The operations of the source -/

/-- `NewAckTree`: a root that expects one ack. -/
def newAckTree : AckTree ε where
  node := fun _ => {}
  invoked := []
  wg := 1

/-- Overwrite the fields of one node. -/
def setNode (t : AckTree ε) (n : NodeId) (v : AckNode) : AckTree ε :=
  { t with node := Function.update t.node n v }

/-- Start one of the two functions given to `NewAckTree`. -/
def invoke (t : AckTree ε) (f : Invocation ε) : AckTree ε :=
  { t with invoked := t.invoked ++ [f] }

/-- `markComplete`, which the source calls on the root only. -/
def markComplete (t : AckTree ε) : AckTree ε :=
  { t.setNode [] { t.node [] with completed := true } with wg := t.wg - 1 }

/-- Count one ack at a node, and note whether it is the node's own. -/
def countAck (t : AckTree ε) (n : NodeId) (selfAck : Bool) : AckTree ε :=
  t.setNode n { t.node n with
    count := (t.node n).count + 1
    selfAcked := selfAck || (t.node n).selfAcked }

/-- `ack.completed = true`. -/
def setCompleted (t : AckTree ε) (n : NodeId) : AckTree ε :=
  t.setNode n { t.node n with completed := true }

/-- The internal method `ack.ack(selfAck, err)`, which a complete node ignores. -/
def ackNode : NodeId → Bool → Option (AckError ε) → AckTree ε → AckTree ε
  | [], selfAck, err, t =>
      if (t.node []).completed then t
      else match err with
        | some e => (t.invoke (.errFn e)).markComplete
        | none =>
            let t := t.countAck [] selfAck
            if (t.node []).count = (t.node []).numAckExpected then
              (t.invoke .completedFn).markComplete
            else t
  | i :: p, selfAck, err, t =>
      if (t.node (i :: p)).completed then t
      else match err with
        | some e => ackNode p false (some e) t
        | none =>
            let t := t.countAck (i :: p) selfAck
            if (t.node (i :: p)).count = (t.node (i :: p)).numAckExpected then
              (ackNode p false none t).setCompleted (i :: p)
            else t

/-- `Ack()`. -/
def ack (t : AckTree ε) (n : NodeId) : AckTree ε := ackNode n true none t

/-- `Nack(err)`. -/
def nack (t : AckTree ε) (n : NodeId) (err : ε) : AckTree ε :=
  ackNode n true (some (.nackError err)) t

/-- `NewSubTree()`: refused once the node has acked itself. -/
def newSubTree (t : AckTree ε) (n : NodeId) : AckTree ε × Except AlreadyAckedError NodeId :=
  if (t.node n).selfAcked then (t, .error .alreadyAckedError)
  else
    let child := ((t.node n).numAckExpected - 1) :: n
    ((t.setNode n { t.node n with numAckExpected := (t.node n).numAckExpected + 1 }).setNode
      child {}, .ok child)

/-- What `startContextListener` does once the context is done. -/
def contextDone (t : AckTree ε) : AckTree ε :=
  if (t.node []).completed then t else (t.invoke (.errFn .timeoutError)).markComplete

/-- `IsDone()`. -/
def isDone (t : AckTree ε) : Bool := (t.node []).completed

/-- `IsAcked()`. -/
def isAcked (t : AckTree ε) (n : NodeId) : Bool := (t.node n).selfAcked

/-! ## Runs -/

/-- The node exists: it is the root, or `NewSubTree` on its parent has returned it. -/
def Created (t : AckTree ε) : NodeId → Prop
  | [] => True
  | i :: p => t.Created p ∧ i + 1 < (t.node p).numAckExpected

instance decidableCreated (t : AckTree ε) : (n : NodeId) → Decidable (t.Created n)
  | [] => isTrue trivial
  | i :: p =>
      have := decidableCreated t p
      inferInstanceAs (Decidable (t.Created p ∧ i + 1 < (t.node p).numAckExpected))

/-- A call on a node of the tree, or the end of the context given to `NewAckTree`. -/
inductive Op (ε : Type) where
  | ack (n : NodeId)
  | nack (n : NodeId) (err : ε)
  | newSubTree (n : NodeId)
  | contextDone
  deriving DecidableEq, Repr

/-- One call; a call needs a node that exists. -/
def step (t : AckTree ε) : Op ε → Option (AckTree ε)
  | .ack n => if t.Created n then some (t.ack n) else none
  | .nack n err => if t.Created n then some (t.nack n err) else none
  | .newSubTree n => if t.Created n then some (t.newSubTree n).1 else none
  | .contextDone => some t.contextDone

/-- What a step can be. -/
theorem step_cases {t t' : AckTree ε} {op : Op ε} (hs : t.step op = some t') :
    (∃ n, op = .ack n ∧ t.Created n ∧ t' = t.ack n) ∨
    (∃ n err, op = .nack n err ∧ t.Created n ∧ t' = t.nack n err) ∨
    (∃ n, op = .newSubTree n ∧ t.Created n ∧ t' = (t.newSubTree n).1) ∨
    (op = .contextDone ∧ t' = t.contextDone) := by
  cases op with
  | ack n =>
      simp only [step, Option.ite_none_right_eq_some, Option.some.injEq] at hs
      exact Or.inl ⟨n, rfl, hs.1, hs.2.symm⟩
  | nack n err =>
      simp only [step, Option.ite_none_right_eq_some, Option.some.injEq] at hs
      exact Or.inr (Or.inl ⟨n, err, rfl, hs.1, hs.2.symm⟩)
  | newSubTree n =>
      simp only [step, Option.ite_none_right_eq_some, Option.some.injEq] at hs
      exact Or.inr (Or.inr (Or.inl ⟨n, rfl, hs.1, hs.2.symm⟩))
  | contextDone =>
      simp only [step, Option.some.injEq] at hs
      exact Or.inr (Or.inr (Or.inr ⟨rfl, hs.symm⟩))

/-- The nodes on which `Ack` was called, in order. -/
def ackedNodes (ops : List (Op ε)) : List NodeId :=
  ops.filterMap fun
    | .ack n => some n
    | _ => none

@[simp] theorem mem_ackedNodes {ops : List (Op ε)} {n : NodeId} :
    n ∈ ackedNodes ops ↔ Op.ack n ∈ ops := by
  unfold ackedNodes
  rw [List.mem_filterMap]
  constructor
  · rintro ⟨op, hop, heq⟩
    cases op with
    | ack m =>
        simp only [Option.some.injEq] at heq
        exact heq ▸ hop
    | nack m err => simp at heq
    | newSubTree m => simp at heq
    | contextDone => simp at heq
  · intro h
    exact ⟨_, h, rfl⟩

/-! ## What the field updates do -/

section Fields

variable (t : AckTree ε) (n m : NodeId) (v : AckNode) (b : Bool) (f : Invocation ε)

@[simp] theorem setNode_node_self : (t.setNode n v).node n = v := Function.update_self ..

theorem setNode_node_of_ne {m n : NodeId} (h : m ≠ n) : (t.setNode n v).node m = t.node m :=
  Function.update_of_ne h ..

@[simp] theorem setNode_invoked : (t.setNode n v).invoked = t.invoked := rfl

@[simp] theorem invoke_node : (t.invoke f).node = t.node := rfl

@[simp] theorem invoke_invoked : (t.invoke f).invoked = t.invoked ++ [f] := rfl

@[simp] theorem markComplete_node_root :
    t.markComplete.node [] = { t.node [] with completed := true } :=
  setNode_node_self t [] { t.node [] with completed := true }

theorem markComplete_node_of_ne {m : NodeId} (h : m ≠ []) : t.markComplete.node m = t.node m :=
  Function.update_of_ne h ..

@[simp] theorem markComplete_invoked : t.markComplete.invoked = t.invoked := rfl

@[simp] theorem countAck_node_self : (t.countAck n b).node n =
    { t.node n with count := (t.node n).count + 1, selfAcked := b || (t.node n).selfAcked } :=
  Function.update_self ..

theorem countAck_node_of_ne {m n : NodeId} (h : m ≠ n) :
    (t.countAck n b).node m = t.node m := Function.update_of_ne h ..

@[simp] theorem countAck_invoked : (t.countAck n b).invoked = t.invoked := rfl

@[simp] theorem setCompleted_node_self :
    (t.setCompleted n).node n = { t.node n with completed := true } := Function.update_self ..

theorem setCompleted_node_of_ne {m n : NodeId} (h : m ≠ n) :
    (t.setCompleted n).node m = t.node m := Function.update_of_ne h ..

@[simp] theorem setCompleted_invoked : (t.setCompleted n).invoked = t.invoked := rfl

end Fields

/-- Updates of different nodes commute. -/
theorem setNode_comm (t : AckTree ε) {n m : NodeId} (h : n ≠ m) (v w : AckNode) :
    (t.setNode n v).setNode m w = (t.setNode m w).setNode n v := by
  unfold setNode
  simp only [Function.update_comm h]

/-! ## Unfolding `ack` one node at a time -/

variable {t : AckTree ε} {n p : NodeId} {i : ℕ} {b : Bool} {e : AckError ε}

/-- A complete node ignores every ack and nack. -/
theorem ackNode_of_completed (h : (t.node n).completed = true) (err : Option (AckError ε)) :
    ackNode n b err t = t := by
  cases n with
  | nil =>
      unfold ackNode
      rw [if_pos h]
  | cons i p =>
      unfold ackNode
      rw [if_pos h]

/-- An ack that does not fill the node only counts. -/
theorem ackNode_of_count_ne (h : (t.node n).completed = false)
    (hne : (t.node n).count + 1 ≠ (t.node n).numAckExpected) :
    ackNode n b none t = t.countAck n b := by
  cases n with
  | nil =>
      rw [ackNode, if_neg (by simp [h])]
      simp only [countAck_node_self]
      rw [if_neg hne]
  | cons i p =>
      rw [ackNode, if_neg (by simp [h])]
      simp only [countAck_node_self]
      rw [if_neg hne]

/-- The ack that fills the root completes the tree. -/
theorem ackNode_root_of_count_eq (h : (t.node []).completed = false)
    (heq : (t.node []).count + 1 = (t.node []).numAckExpected) :
    ackNode [] b none t = ((t.countAck [] b).invoke .completedFn).markComplete := by
  rw [ackNode, if_neg (by simp [h])]
  simp only [countAck_node_self]
  rw [if_pos heq]

/-- The ack that fills a child acks the parent and completes the child. -/
theorem ackNode_cons_of_count_eq (h : (t.node (i :: p)).completed = false)
    (heq : (t.node (i :: p)).count + 1 = (t.node (i :: p)).numAckExpected) :
    ackNode (i :: p) b none t =
      (ackNode p false none (t.countAck (i :: p) b)).setCompleted (i :: p) := by
  rw [ackNode, if_neg (by simp [h])]
  simp only [countAck_node_self]
  rw [if_pos heq]

/-- Note a node's own ack without counting it. -/
def setSelfAcked (t : AckTree ε) (n : NodeId) : AckTree ε :=
  t.setNode n { t.node n with selfAcked := true }

@[simp] theorem setSelfAcked_node_self :
    (t.setSelfAcked n).node n = { t.node n with selfAcked := true } := Function.update_self ..

theorem setSelfAcked_node_of_ne {m : NodeId} (h : m ≠ n) :
    (t.setSelfAcked n).node m = t.node m := Function.update_of_ne h ..

@[simp] theorem setSelfAcked_invoked : (t.setSelfAcked n).invoked = t.invoked := rfl

/-- An own ack is noted first and then counted like the ack of a child. -/
theorem ack_of_open (h : (t.node n).completed = false) :
    t.ack n = ackNode n false none (t.setSelfAcked n) := by
  have hcount : t.countAck n true = (t.setSelfAcked n).countAck n false := by
    simp [countAck, setSelfAcked, setNode]
  have hself : ((t.setSelfAcked n).node n).completed = false := by simpa using h
  unfold ack
  cases n with
  | nil =>
      unfold ackNode
      simp only [h, hself, hcount, Bool.false_eq_true, if_false]
  | cons i p =>
      unfold ackNode
      simp only [h, hself, hcount, Bool.false_eq_true, if_false]

/-! ## Frame: a call touches only the path to the root -/

/-- `ack` writes no node off the path from `n` to the root. -/
theorem ackNode_node_of_not_suffix (err : Option (AckError ε)) {m : NodeId} (h : ¬ m <:+ n) :
    (ackNode n b err t).node m = t.node m := by
  induction n generalizing t b with
  | nil =>
      have hm : m ≠ [] := fun he => h (he ▸ List.suffix_refl _)
      unfold ackNode
      split
      · rfl
      · cases err with
        | some e => exact markComplete_node_of_ne _ hm
        | none =>
            dsimp only
            split
            · rw [markComplete_node_of_ne _ hm, invoke_node, countAck_node_of_ne _ _ hm]
            · exact countAck_node_of_ne _ _ hm
  | cons i p ih =>
      have hm : m ≠ i :: p := fun he => h (he ▸ List.suffix_refl _)
      have hp : ¬ m <:+ p := fun hs => h (hs.trans (List.suffix_cons i p))
      unfold ackNode
      split
      · rfl
      · cases err with
        | some e => exact ih hp
        | none =>
            dsimp only
            split
            · rw [setCompleted_node_of_ne _ hm, ih hp, countAck_node_of_ne _ _ hm]
            · exact countAck_node_of_ne _ _ hm

/-- Nor does it read one: a write off the path can be done before or after. -/
theorem ackNode_setNode (err : Option (AckError ε)) {m : NodeId} (h : ¬ m <:+ n) (v : AckNode) :
    ackNode n b err (t.setNode m v) = (ackNode n b err t).setNode m v := by
  induction n generalizing t b with
  | nil =>
      have hm : [] ≠ m := fun he => h (he ▸ List.suffix_refl _)
      unfold ackNode
      rw [setNode_node_of_ne _ _ hm]
      split
      · rfl
      · cases err with
        | some e => simp [markComplete, invoke, setNode, Function.update_comm hm,
            Function.update_of_ne hm]
        | none =>
            simp only [countAck, setNode_node_self, setNode_node_of_ne _ _ hm]
            split
            · simp [markComplete, invoke, setNode, Function.update_comm hm]
            · rw [setNode_comm _ hm]
  | cons i p ih =>
      have hm : i :: p ≠ m := fun he => h (he ▸ List.suffix_refl _)
      have hp : ¬ m <:+ p := fun hs => h (hs.trans (List.suffix_cons i p))
      unfold ackNode
      rw [setNode_node_of_ne _ _ hm]
      split
      · rfl
      · cases err with
        | some e => exact ih hp
        | none =>
            simp only [countAck, setNode_node_self, setNode_node_of_ne _ _ hm]
            split
            · rw [setNode_comm _ hm.symm, ih hp]
              simp only [setCompleted, setNode_node_of_ne _ _ hm]
              rw [setNode_comm _ hm.symm]
            · rw [setNode_comm _ hm]

/-- Completing the child commutes with the call on the parent, so the ack that fills a
child completes it first and then acks the parent. -/
theorem ackNode_cons_fill (h : (t.node (i :: p)).completed = false)
    (heq : (t.node (i :: p)).count + 1 = (t.node (i :: p)).numAckExpected) :
    ackNode (i :: p) b none t =
      ackNode p false none ((t.countAck (i :: p) b).setCompleted (i :: p)) := by
  have hns : ¬ i :: p <:+ p := fun hs => by simpa using hs.length_le
  rw [ackNode_cons_of_count_eq h heq, setCompleted, ackNode_node_of_not_suffix _ hns,
    ← ackNode_setNode _ hns]
  rfl

/-- A complete node is not written again. -/
theorem ackNode_node_of_completed (err : Option (AckError ε)) {m : NodeId}
    (h : (t.node m).completed = true) : (ackNode n b err t).node m = t.node m := by
  induction n generalizing t b with
  | nil =>
      by_cases hm : m = []
      · subst hm
        rw [ackNode_of_completed h]
      · exact ackNode_node_of_not_suffix err fun hs => hm (List.suffix_nil.mp hs)
  | cons i p ih =>
      by_cases hm : m = i :: p
      · subst hm
        rw [ackNode_of_completed h]
      · unfold ackNode
        split
        · rfl
        · cases err with
          | some e => exact ih h
          | none =>
              dsimp only
              split
              · rw [setCompleted_node_of_ne _ hm, ih, countAck_node_of_ne _ _ hm]
                rwa [countAck_node_of_ne _ _ hm]
              · rw [countAck_node_of_ne _ _ hm]

end AckTree
