/-
# The part of an ack tree below a node

Calls on nodes below a node `c` read and write, of the part of the tree at and below `c`,
what was there before and nothing else: two trees that look the same below `c` and `c'`
(`BelowEq`) still do after the same call in both.  Calls elsewhere leave that part alone.

A node that does not exist yet has the fields of a new node (`Fresh`).
-/
import Ears.AckOutcome

namespace AckTree

variable {ε : Type} {t u : AckTree ε} {c c' n m x : NodeId} {b : Bool}
  {err : Option (AckError ε)}

/-! ## Nodes that do not exist -/

/-- Nodes that do not exist have the fields of a new node. -/
def Fresh (t : AckTree ε) : Prop := ∀ m, ¬ t.Created m → t.node m = {}

theorem Fresh.ackNode (h : t.Fresh) (hn : t.Created n) : (ackNode n b err t).Fresh := by
  intro m hm
  have hm' : ¬ t.Created m := fun hc => hm ((ackNode_created err).mpr hc)
  rw [ackNode_node_of_not_suffix err fun hs => hm' (hn.of_suffix hs)]
  exact h m hm'

/-- `NewSubTree` of a node changes no other node of a fresh tree. -/
theorem Fresh.newSubTree_node (h : t.Fresh) (hmn : m ≠ n) :
    (t.newSubTree n).1.node m = t.node m := by
  unfold AckTree.newSubTree
  split
  · rfl
  · dsimp only
    by_cases hmc : m = ((t.node n).numAckExpected - 1) :: n
    · have hnew : ¬ t.Created m := fun hc => hc.ne_newChild hmc
      rw [h m hnew, hmc, setNode_node_self]
    · rw [setNode_node_of_ne _ _ hmc, setNode_node_of_ne _ _ hmn]

theorem Fresh.newSubTree (h : t.Fresh) (hn : t.Created n) : (t.newSubTree n).1.Fresh := by
  intro m hm
  have hm' : ¬ t.Created m := fun hc => hm (hc.newSubTree n)
  have hmn : m ≠ n := fun he => hm' (he ▸ hn)
  rw [h.newSubTree_node hmn]
  exact h m hm'

theorem Fresh.contextDone (h : t.Fresh) : t.contextDone.Fresh := by
  intro m hm
  rw [contextDone_node] at *
  have hcreated : t.contextDone.Created m ↔ t.Created m :=
    created_congr fun k => by
      rw [contextDone_node]
      split <;> simp_all
  have hm' : ¬ t.Created m := fun hc => hm (hcreated.mpr hc)
  have hne : m ≠ [] := fun he => hm' (he ▸ trivial)
  simp [hne, h m hm']

theorem Fresh.step {t' : AckTree ε} {op : Op ε} (h : t.Fresh) (hs : t.step op = some t') :
    t'.Fresh := by
  rcases step_cases hs with ⟨n, rfl, hc, rfl⟩ | ⟨n, err, rfl, hc, rfl⟩ | ⟨n, rfl, hc, rfl⟩ |
    ⟨rfl, rfl⟩
  · exact h.ackNode hc
  · exact h.ackNode hc
  · exact h.newSubTree hc
  · exact h.contextDone

/-- Every tree that calls can lead to is fresh. -/
theorem fresh_of_run {ops : List (Op ε)} (hrun : Runs.run step newAckTree ops = some t) :
    t.Fresh :=
  Runs.run_induction (P := Fresh) (fun _ _ _ h hs => h.step hs) (fun _ _ => rfl) hrun

/-! ## Calls below a node -/

/-- The part of `t` at and below `c` is the part of `u` at and below `c'`. -/
def BelowEq (c c' : NodeId) (t u : AckTree ε) : Prop := ∀ m, t.node (m ++ c) = u.node (m ++ c')

theorem BelowEq.setNode (h : BelowEq c c' t u) (x : NodeId) (v : AckNode) :
    BelowEq c c' (t.setNode (x ++ c) v) (u.setNode (x ++ c') v) := by
  intro m
  by_cases hm : m = x
  · rw [hm, setNode_node_self, setNode_node_self]
  · have hc : m ++ c ≠ x ++ c := fun he => hm (List.append_cancel_right he)
    have hc' : m ++ c' ≠ x ++ c' := fun he => hm (List.append_cancel_right he)
    rw [setNode_node_of_ne _ _ hc, setNode_node_of_ne _ _ hc', h m]

theorem BelowEq.countAck (h : BelowEq c c' t u) (x : NodeId) (b : Bool) :
    BelowEq c c' (t.countAck (x ++ c) b) (u.countAck (x ++ c') b) := by
  unfold AckTree.countAck
  rw [h x]
  exact h.setNode x _

theorem BelowEq.setCompleted (h : BelowEq c c' t u) (x : NodeId) :
    BelowEq c c' (t.setCompleted (x ++ c)) (u.setCompleted (x ++ c')) := by
  unfold AckTree.setCompleted
  rw [h x]
  exact h.setNode x _

/-- One level of `ack`: what the call on the parent keeps, the call keeps. -/
theorem BelowEq.ackNode_cons {k k' : ℕ} {q q' : NodeId} (hq : x ++ c = k :: q)
    (hq' : x ++ c' = k' :: q')
    (hup : ∀ {t u : AckTree ε}, BelowEq c c' t u →
      BelowEq c c' (ackNode q false err t) (ackNode q' false err u))
    (h : BelowEq c c' t u) :
    BelowEq c c' (ackNode (x ++ c) b err t) (ackNode (x ++ c') b err u) := by
  have hcount := h.countAck x b
  have hx := h x
  have hx' := hcount x
  have hset := fun t' u' (h' : BelowEq c c' t' u') => BelowEq.setCompleted (ε := ε) h' x
  rw [hq, hq'] at *
  unfold AckTree.ackNode
  rw [hx]
  split
  · exact h
  · cases err with
    | some e => exact hup h
    | none =>
        dsimp only
        rw [hx']
        split
        · exact hset _ _ (hup hcount)
        · exact hcount

/-- `Ack` and `Nack` below a node. -/
theorem BelowEq.ackNode {i i' : ℕ} {p p' : NodeId} (x : NodeId) :
    ∀ {t u : AckTree ε} {b : Bool}, BelowEq (i :: p) (i' :: p') t u →
      BelowEq (i :: p) (i' :: p') (ackNode (x ++ i :: p) b err t)
        (ackNode (x ++ i' :: p') b err u) := by
  have hframe : ∀ (j : ℕ) (q m : NodeId), ¬ m ++ j :: q <:+ q := by
    intro j q m hs
    have hlen := hs.length_le
    rw [List.length_append, List.length_cons] at hlen
    omega
  induction x with
  | nil =>
      intro t u b h
      refine BelowEq.ackNode_cons (x := []) rfl rfl ?_ h
      -- the call on the parent does not reach down
      intro t u h m
      rw [ackNode_node_of_not_suffix _ (hframe i p m),
        ackNode_node_of_not_suffix _ (hframe i' p' m)]
      exact h m
  | cons k x ih =>
      intro t u b h
      exact BelowEq.ackNode_cons (x := k :: x) rfl rfl ih h

/-- `NewSubTree` below a node: the children get the same number. -/
theorem BelowEq.newSubTree (h : BelowEq c c' t u) (x : NodeId) :
    BelowEq c c' (t.newSubTree (x ++ c)).1 (u.newSubTree (x ++ c')).1 := by
  unfold AckTree.newSubTree
  rw [h x]
  split
  · exact h
  · exact (h.setNode x _).setNode (_ :: x) _

theorem BelowEq.created (h : BelowEq c c' t u) (hc : t.Created c) (hc' : u.Created c')
    (x : NodeId) : t.Created (x ++ c) ↔ u.Created (x ++ c') := by
  induction x with
  | nil => exact ⟨fun _ => hc', fun _ => hc⟩
  | cons k x ih =>
      rw [List.cons_append, List.cons_append]
      show t.Created (x ++ c) ∧ k + 1 < (t.node (x ++ c)).numAckExpected ↔
        u.Created (x ++ c') ∧ k + 1 < (u.node (x ++ c')).numAckExpected
      rw [ih, h x]

/-! ## Calls elsewhere -/

end AckTree
