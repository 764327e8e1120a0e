/-
# The outcome of an ack tree

What a whole run of an ack tree does.  `Trace tr t` collects what the calls made so
far say about the state: a node has acked itself only if `Ack` was called on it, a
call of `Ack` leaves its node acked or complete, and the depth of the tree is bounded
by the number of calls.  With the tally of `AckTally.lean` this gives

* `completedFn_iff_all_acked`: with no nack and no end of the context, and `Ack`
  called at most once on each node, `completedFn` has been started exactly when every
  node has been acked, and then once;
* `single_outcome`: at most one function is started, in every run, and a nack of a
  node whose subtree is not completely acked decides the outcome.
-/
import Ears.AckTally

namespace AckTree

variable {ε : Type} {t t' : AckTree ε} {n m : NodeId} {op : Op ε} {tr : List (Op ε)}

/-! ## What one step does to a node that exists -/

/-- `Ack()` sets the node's own flag unless the node is complete, and no other. -/
theorem ack_selfAcked (n m : NodeId) : ((t.ack n).node m).selfAcked =
    ((t.node m).selfAcked || (decide (m = n) && !(t.node n).completed)) := by
  by_cases h : (t.node n).completed = true
  · unfold ack
    rw [ackNode_of_completed h, h]
    simp
  · rw [Bool.not_eq_true] at h
    rw [ack_of_open h, ackNode_false_selfAcked, h]
    by_cases hm : m = n
    · subst hm
      simp
    · simp [setSelfAcked_node_of_ne hm, hm]

/-- `Nack(err)` sets no node's own flag. -/
theorem nack_selfAcked (n m : NodeId) (err : ε) :
    ((t.nack n err).node m).selfAcked = (t.node m).selfAcked := by
  unfold nack
  by_cases h : t.OpenPath n
  · rw [ackNode_some_of_open _ h]
    by_cases hm : m = []
    · subst hm
      simp
    · rw [markComplete_node_of_ne _ hm, invoke_node]
  · rw [ackNode_some_of_not_open _ h]

theorem contextDone_node (m : NodeId) : t.contextDone.node m =
    if m = [] ∧ (t.node []).completed = false then { t.node [] with completed := true }
    else t.node m := by
  unfold contextDone
  by_cases h : (t.node []).completed = true
  · simp [h]
  · rw [if_neg h]
    by_cases hm : m = []
    · subst hm
      simp [h]
    · simp [markComplete_node_of_ne _ hm, hm]

/-- The child that `NewSubTree` makes did not exist. -/
theorem Created.ne_newChild (h : t.Created m) : m ≠ ((t.node n).numAckExpected - 1) :: n := by
  rintro rfl
  have := h.2
  omega

/-- `NewSubTree` changes one field of one node that exists. -/
theorem newSubTree_node (h : t.Created m) : (t.newSubTree n).1.node m =
    if m = n ∧ (t.node n).selfAcked = false then
      { t.node n with numAckExpected := (t.node n).numAckExpected + 1 }
    else t.node m := by
  unfold newSubTree
  by_cases hself : (t.node n).selfAcked = true
  · simp [hself]
  · rw [if_neg hself]
    dsimp only
    rw [setNode_node_of_ne _ _ h.ne_newChild]
    by_cases hm : m = n
    · subst hm
      simp [hself]
    · simp [setNode_node_of_ne _ _ hm, hm]

/-- `NewSubTree` removes no node. -/
theorem Created.newSubTree (h : t.Created m) (n : NodeId) : (t.newSubTree n).1.Created m := by
  induction m with
  | nil => trivial
  | cons i p ih =>
      refine ⟨ih h.1, ?_⟩
      rw [newSubTree_node h.1]
      split
      · rename_i hpn
        rw [← hpn.1]
        exact Nat.lt_succ_of_lt h.2
      · exact h.2

/-- Which nodes exist after `NewSubTree`. -/
theorem newSubTree_created (hpos : 1 ≤ (t.node n).numAckExpected)
    (h : (t.newSubTree n).1.Created m) :
    t.Created m ∨ (m = ((t.node n).numAckExpected - 1) :: n ∧ (t.node n).selfAcked = false) := by
  induction m with
  | nil => exact Or.inl trivial
  | cons i p ih =>
      obtain ⟨hp, hi⟩ := h
      rcases ih hp with hcp | ⟨hpc, hself⟩
      · rw [newSubTree_node hcp] at hi
        split at hi
        · rename_i hpn
          obtain ⟨rfl, hself⟩ := hpn
          by_cases hlt : i + 1 < (t.node p).numAckExpected
          · exact Or.inl ⟨hcp, hlt⟩
          · refine Or.inr ⟨?_, hself⟩
            congr 1
            simp only at hi
            omega
        · exact Or.inl ⟨hcp, hi⟩
      · -- the new child has no children
        rw [newSubTree, if_neg (by simp [hself]), hpc] at hi
        simp at hi

/-- The child that `NewSubTree` returns exists. -/
theorem Created.newChild (h : t.Created n) (hpos : 1 ≤ (t.node n).numAckExpected)
    (hself : (t.node n).selfAcked = false) :
    (t.newSubTree n).1.Created (((t.node n).numAckExpected - 1) :: n) := by
  refine ⟨h.newSubTree n, ?_⟩
  rw [newSubTree_node h, if_pos ⟨rfl, hself⟩]
  show (t.node n).numAckExpected - 1 + 1 < (t.node n).numAckExpected + 1
  omega

/-- A node that exists keeps existing, stays acked and stays complete. -/
theorem step_mono (hs : t.step op = some t') (hm : t.Created m) :
    t'.Created m ∧ ((t.node m).selfAcked = true → (t'.node m).selfAcked = true) ∧
      ((t.node m).completed = true → (t'.node m).completed = true) := by
  rcases step_cases hs with ⟨n, rfl, hc, rfl⟩ | ⟨n, err, rfl, -, rfl⟩ | ⟨n, rfl, -, rfl⟩ |
    ⟨rfl, rfl⟩
  · refine ⟨(ackNode_created none).mpr hm, fun h => ?_, fun h => ?_⟩
    · rw [ack_selfAcked, h, Bool.true_or]
    · unfold ack
      rwa [ackNode_node_of_completed _ h]
  · refine ⟨(ackNode_created _).mpr hm, fun h => ?_, fun h => ?_⟩
    · rwa [nack_selfAcked]
    · unfold nack
      rwa [ackNode_node_of_completed _ h]
  · refine ⟨hm.newSubTree n, fun h => ?_, fun h => ?_⟩
    · rw [newSubTree_node hm]
      split
      · rename_i hmn
        rwa [← hmn.1]
      · exact h
    · rw [newSubTree_node hm]
      split
      · rename_i hmn
        rwa [← hmn.1]
      · exact h
  · have hexp : ∀ k, (t.contextDone.node k).numAckExpected = (t.node k).numAckExpected := by
      intro k
      rw [contextDone_node]
      split
      · rename_i hk
        rw [hk.1]
      · rfl
    refine ⟨(created_congr hexp).mpr hm, fun h => ?_, fun h => ?_⟩
    · rw [contextDone_node]
      split
      · rename_i hk
        rwa [← hk.1]
      · exact h
    · rw [contextDone_node]
      split
      · rfl
      · exact h

/-- A node becomes acked only by a call of `Ack` on it. -/
theorem selfAcked_of_step (hs : t.step op = some t') (h : (t'.node m).selfAcked = true) :
    (t.node m).selfAcked = true ∨ op = .ack m := by
  rcases step_cases hs with ⟨n, rfl, hc, rfl⟩ | ⟨n, err, rfl, -, rfl⟩ | ⟨n, rfl, -, rfl⟩ |
    ⟨rfl, rfl⟩
  · rw [ack_selfAcked] at h
    by_cases hm : m = n
    · exact Or.inr (by rw [hm])
    · exact Or.inl (by simpa [hm] using h)
  · rw [nack_selfAcked] at h
    exact Or.inl h
  · unfold newSubTree at h
    split at h
    · exact Or.inl h
    · -- the new child is not acked, its parent keeps what it has
      dsimp only at h
      by_cases hmc : m = ((t.node n).numAckExpected - 1) :: n
      · rw [hmc, setNode_node_self] at h
        simp at h
      · rw [setNode_node_of_ne _ _ hmc] at h
        by_cases hmn : m = n
        · rw [hmn, setNode_node_self] at h
          exact Or.inl (hmn ▸ h)
        · rw [setNode_node_of_ne _ _ hmn] at h
          exact Or.inl h
  · rw [contextDone_node] at h
    split at h
    · rename_i hk
      exact Or.inl (hk.1 ▸ h)
    · exact Or.inl h

/-! ## What the calls made so far say about the state -/

/-- The state `t` after the calls `tr`. -/
structure Trace (tr : List (Op ε)) (t : AckTree ε) : Prop where
  acked_mem : ∀ m, (t.node m).selfAcked = true → Op.ack m ∈ tr
  mem_acked : ∀ m, Op.ack m ∈ tr →
    t.Created m ∧ ((t.node m).selfAcked = true ∨ (t.node m).completed = true)
  depth : ∀ m, t.Created m → m.length ≤ tr.length
  tally : Tally false none t
  tally_once : (ackedNodes tr).Nodup → Tally true none t

theorem Trace.newAckTree : Trace [] (AckTree.newAckTree : AckTree ε) where
  acked_mem := fun m h => by simp [AckTree.newAckTree] at h
  mem_acked := fun m h => by simp at h
  depth := by
    intro m hm
    cases m with
    | nil => exact le_rfl
    | cons i p => simp [Created, AckTree.newAckTree] at hm
  tally := Tally.newAckTree
  tally_once := fun _ => Tally.newAckTree

/-- The expected acks do not change, so the depth of the tree does not. -/
theorem created_of_step (hpos : ∀ n, 1 ≤ (t.node n).numAckExpected)
    (hs : t.step op = some t') (hm : t'.Created m) :
    t.Created m ∨ ∃ i n, m = i :: n ∧ t.Created n := by
  rcases step_cases hs with ⟨n, rfl, hc, rfl⟩ | ⟨n, err, rfl, -, rfl⟩ | ⟨n, rfl, hc, rfl⟩ |
    ⟨rfl, rfl⟩
  · exact Or.inl ((ackNode_created none).mp hm)
  · exact Or.inl ((ackNode_created _).mp hm)
  · rcases newSubTree_created (hpos n) hm with h | ⟨rfl, -⟩
    · exact Or.inl h
    · exact Or.inr ⟨_, n, rfl, hc⟩
  · refine Or.inl ((created_congr fun k => ?_).mp hm)
    rw [contextDone_node]
    split
    · rename_i hk
      rw [hk.1]
    · rfl

theorem Trace.step (h : Trace tr t) (hs : t.step op = some t') : Trace (tr ++ [op]) t' where
  acked_mem := by
    intro m hm
    rcases selfAcked_of_step hs hm with hm | rfl
    · exact List.mem_append_left _ (h.acked_mem m hm)
    · simp
  mem_acked := by
    intro m hm
    rcases List.mem_append.mp hm with hm | hm
    · obtain ⟨hc, hor⟩ := h.mem_acked m hm
      obtain ⟨hc', hself, hcomp⟩ := step_mono hs hc
      exact ⟨hc', hor.imp hself hcomp⟩
    · rw [List.mem_singleton] at hm
      subst hm
      simp only [AckTree.step, Option.ite_none_right_eq_some, Option.some.injEq] at hs
      obtain ⟨hc, rfl⟩ := hs
      refine ⟨(ackNode_created none).mpr hc, ?_⟩
      by_cases hcomp : (t.node m).completed = true
      · right
        unfold AckTree.ack
        rwa [ackNode_of_completed hcomp]
      · left
        rw [ack_selfAcked]
        simp [hcomp]
  depth := by
    intro m hm
    rw [List.length_append, List.length_singleton]
    rcases created_of_step h.tally.expected_pos hs hm with hm | ⟨i, n, rfl, hn⟩
    · exact Nat.le_succ_of_le (h.depth m hm)
    · rw [List.length_cons]
      exact Nat.succ_le_succ (h.depth n hn)
  tally := h.tally.step (by simp) hs
  tally_once := by
    intro hnodup
    unfold ackedNodes at hnodup
    rw [List.filterMap_append, List.nodup_append] at hnodup
    obtain ⟨htr, -, hdisj⟩ := hnodup
    refine (h.tally_once htr).step (fun n hop _ => Or.inl ?_) hs
    -- a second own ack would be a second call
    subst hop
    by_contra hself
    rw [Bool.not_eq_false] at hself
    exact hdisj n (mem_ackedNodes.mpr (h.acked_mem n hself)) n (by simp) rfl

/-- Every run has a trace. -/
theorem trace_of_run (hrun : Runs.run step newAckTree tr = some t) : Trace tr t :=
  Runs.run_induction_trace (fun _ _ _ _ h hs => Trace.step h hs) Trace.newAckTree hrun

/-- While the root is open, the acked nodes are those on which `Ack` was called. -/
theorem Trace.acked_iff (h : Trace tr t) (hroot : (t.node []).completed = false) (m : NodeId) :
    (t.node m).selfAcked = true ↔ Op.ack m ∈ tr := by
  refine ⟨h.acked_mem m, fun hm => ?_⟩
  rcases (h.mem_acked m hm).2 with hself | hcomp
  · exact hself
  · refine (h.tally.acked m hcomp (Or.inl ?_)).1
    rintro rfl
    rw [hroot] at hcomp
    simp at hcomp

/-! ## The functions started so far -/

/-- An ack starts nothing or `completedFn`. -/
theorem ackNode_none_invoked {b : Bool} : (ackNode n b none t).invoked = t.invoked ∨
    (ackNode n b none t).invoked = t.invoked ++ [.completedFn] := by
  induction n generalizing t b with
  | nil =>
      unfold ackNode
      split
      · exact Or.inl rfl
      · dsimp only
        split
        · exact Or.inr rfl
        · exact Or.inl rfl
  | cons i p ih =>
      unfold ackNode
      split
      · exact Or.inl rfl
      · dsimp only
        split
        · exact ih
        · exact Or.inl rfl

theorem newSubTree_invoked (n : NodeId) : (t.newSubTree n).1.invoked = t.invoked := by
  unfold newSubTree
  split <;> rfl

/-- What is started stays started. -/
theorem step_invoked_mono (hs : t.step op = some t') : t.invoked <+: t'.invoked := by
  rcases step_cases hs with ⟨n, rfl, hc, rfl⟩ | ⟨n, err, rfl, -, rfl⟩ | ⟨n, rfl, -, rfl⟩ |
    ⟨rfl, rfl⟩
  · unfold ack
    rcases ackNode_none_invoked (t := t) (n := n) (b := true) with h | h
    · rw [h]
    · rw [h]
      exact List.prefix_append ..
  · unfold nack
    by_cases h : t.OpenPath n
    · rw [ackNode_some_of_open _ h]
      exact List.prefix_append ..
    · rw [ackNode_some_of_not_open _ h]
  · rw [newSubTree_invoked]
  · unfold contextDone
    split
    · exact List.prefix_refl _
    · exact List.prefix_append ..

theorem run_invoked_mono (hrun : Runs.run step t tr = some t') : t.invoked <+: t'.invoked :=
  Runs.run_induction (P := fun u : AckTree ε => t.invoked <+: u.invoked)
    (fun _ _ _ h hs => h.trans (step_invoked_mono hs)) (List.prefix_refl _) hrun

/-- At most one function is started. -/
theorem Tally.invoked_length_le {once : Bool} {debt : Option NodeId} (h : Tally once debt t) :
    t.invoked.length ≤ 1 := by
  rw [h.outcome]
  split <;> omega

/-- Without nacks and without the end of the context `errFn` is not started. -/
theorem errFn_notMem (hrun : Runs.run step newAckTree tr = some t)
    (hops : ∀ op ∈ tr, (∃ n, op = .ack n) ∨ ∃ n, op = .newSubTree n) (e : AckError ε) :
    .errFn e ∉ t.invoked := by
  refine Runs.run_induction_trace
    (P := fun tr (t : AckTree ε) =>
      (∀ op ∈ tr, (∃ n, op = .ack n) ∨ ∃ n, op = .newSubTree n) → .errFn e ∉ t.invoked)
    ?_ ?_ hrun hops
  · intro tr s op s' ih hs hall
    have hnot := ih fun o ho => hall o (List.mem_append_left _ ho)
    rcases hall op (by simp) with ⟨n, rfl⟩ | ⟨n, rfl⟩
    · simp only [step, Option.ite_none_right_eq_some, Option.some.injEq] at hs
      obtain ⟨-, rfl⟩ := hs
      unfold ack
      rcases ackNode_none_invoked (t := s) (n := n) (b := true) with h | h
      · rwa [h]
      · simpa [h] using hnot
    · simp only [step, Option.ite_none_right_eq_some, Option.some.injEq] at hs
      obtain ⟨-, rfl⟩ := hs
      rwa [newSubTree_invoked]
  · intro _
    simp [newAckTree]

/-! ## Completion -/

/-- A complete tree without nacks has started `completedFn` and nothing else. -/
theorem invoked_of_completed (hrun : Runs.run step newAckTree tr = some t)
    (hops : ∀ op ∈ tr, (∃ n, op = .ack n) ∨ ∃ n, op = .newSubTree n)
    (hroot : (t.node []).completed = true) : t.invoked = [.completedFn] := by
  have hlen : t.invoked.length = 1 := by
    rw [(trace_of_run hrun).tally.outcome, if_pos hroot]
  obtain ⟨f, hf⟩ := List.length_eq_one_iff.mp hlen
  cases f with
  | completedFn => exact hf
  | errFn e => exact absurd (by simp [hf]) (errFn_notMem hrun hops e)

/-- A tree whose nodes have all been acked is complete. -/
theorem Trace.completed_of_all_acked (h : Trace tr t) (honce : (ackedNodes tr).Nodup)
    (hall : ∀ n, t.Created n → Op.ack n ∈ tr) : (t.node []).completed = true := by
  by_contra hroot
  rw [Bool.not_eq_true] at hroot
  have := (h.tally_once honce).all_completed (n := []) h.depth
    (fun m hm => (h.acked_iff hroot m).mpr (hall m hm)) trivial
  rw [hroot] at this
  simp at this

/-- **An ack tree completes exactly when every node has been acked.**  In every run of
`NewSubTree` and `Ack` calls that acks each node at most once, `errFn` is never started,
`completedFn` at most once, and it has been started exactly when every node that exists
has been acked. -/
theorem completedFn_iff_all_acked {ops : List (Op ε)}
    (hrun : Runs.run step newAckTree ops = some t)
    (hops : ∀ op ∈ ops, (∃ n, op = .ack n) ∨ ∃ n, op = .newSubTree n)
    (honce : (ackedNodes ops).Nodup) :
    (t.invoked = [] ∨ t.invoked = [.completedFn]) ∧
      (t.invoked = [.completedFn] ↔ ∀ n, t.Created n → Op.ack n ∈ ops) := by
  have htrace := trace_of_run hrun
  have htally := htrace.tally_once honce
  by_cases hroot : (t.node []).completed = true
  · have hinv := invoked_of_completed hrun hops hroot
    refine ⟨Or.inr hinv, fun _ n hn => ?_, fun _ => hinv⟩
    refine htrace.acked_mem n (htally.below hroot (Or.inr ?_) List.nil_suffix hn).2
    simp [hinv]
  · have hnil := htally.invoked_eq_nil (by simpa using hroot)
    refine ⟨Or.inl hnil, fun h => ?_, fun hall => ?_⟩
    · simp [hnil] at h
    · exact absurd (htrace.completed_of_all_acked honce hall) hroot

/-- Two children of the root, one of them split again, acked from the top down. -/
theorem completedFn_iff_all_acked_split :
    let ops : List (Op Unit) := [.newSubTree [], .newSubTree [], .newSubTree [1], .ack [],
      .ack [1], .ack [0], .ack [0, 1]]
    ∃ t, Runs.run step newAckTree ops = some t ∧ t.invoked = [.completedFn] ∧
      ∀ n, t.Created n → Op.ack n ∈ ops := by
  intro ops
  obtain ⟨t, ht⟩ : ∃ t, Runs.run step newAckTree ops = some t :=
    Option.isSome_iff_exists.mp (by decide)
  have hinv : t.invoked = [.completedFn] := by
    have : (Runs.run step newAckTree ops).map invoked = some [.completedFn] := by decide
    rw [ht] at this
    simpa using this
  have h := completedFn_iff_all_acked ht (by simp [ops]) (by decide)
  exact ⟨t, ht, hinv, h.2.mp hinv⟩

/-! ## A single outcome -/

/-- A node whose subtree is not completely acked has no complete node above it. -/
theorem Trace.openPath (h : Trace tr t) (honce : (ackedNodes tr).Nodup) (hinv : t.invoked = [])
    (hnm : n <:+ m) (hm : t.Created m) (hnot : Op.ack m ∉ tr) : t.OpenPath n := by
  intro k hk
  by_contra hcomp
  rw [Bool.not_eq_false] at hcomp
  have hne : k ≠ [] := by
    rintro rfl
    have := h.tally.outcome
    rw [hcomp, hinv] at this
    simp at this
  exact hnot (h.acked_mem m ((h.tally_once honce).below hcomp (Or.inl hne) (hk.trans hnm) hm).2)

/-- **An ack tree has one outcome.**  In every run `completedFn` and `errFn` together are
started at most once; and in a run that acks each node at most once, a nack of a node
whose subtree is not completely acked, made before any function was started, starts
`errFn` with that nack, and nothing is started after it. -/
theorem single_outcome :
    (∀ (ops : List (Op ε)) (t : AckTree ε),
      Runs.run step newAckTree ops = some t → t.invoked.length ≤ 1) ∧
    (∀ (pre post : List (Op ε)) (n : NodeId) (err : ε) (t₁ t : AckTree ε),
      (ackedNodes (pre ++ .nack n err :: post)).Nodup →
      Runs.run step newAckTree pre = some t₁ → t₁.invoked = [] →
      (∃ m, n <:+ m ∧ t₁.Created m ∧ Op.ack m ∉ pre) →
      Runs.run step newAckTree (pre ++ .nack n err :: post) = some t →
      t.invoked = [.errFn (.nackError err)]) := by
  refine ⟨fun ops t hrun => (Tally.of_run hrun).invoked_length_le, ?_⟩
  rintro pre post n err t₁ t honce hpre hinv ⟨m, hnm, hm, hnot⟩ hrun
  have hpre_once : (ackedNodes pre).Nodup := by
    unfold ackedNodes at honce ⊢
    rw [List.filterMap_append] at honce
    exact (List.nodup_append.mp honce).1
  have hopen := (trace_of_run hpre).openPath hpre_once hinv hnm hm hnot
  obtain ⟨u, hu, hrest⟩ := Runs.run_append_eq_some.mp hrun
  rw [hpre, Option.some.injEq] at hu
  subst hu
  obtain ⟨v, hv, hpost⟩ := Runs.run_cons_eq_some.mp hrest
  simp only [step, Option.ite_none_right_eq_some, Option.some.injEq] at hv
  obtain ⟨-, rfl⟩ := hv
  have hfirst : (t₁.nack n err).invoked = [.errFn (.nackError err)] := by
    unfold nack
    rw [ackNode_some_of_open _ hopen]
    simp [hinv]
  -- what is started stays, and there is room for one only
  obtain ⟨more, hmore⟩ := run_invoked_mono hpost
  have hlen := (Tally.of_run hrun).invoked_length_le
  rw [← hmore, hfirst] at hlen ⊢
  have : more = [] := by
    rw [List.length_append, List.length_singleton] at hlen
    exact List.eq_nil_of_length_eq_zero (by omega)
  rw [this, List.append_nil]

/-- A nack of the first child, after the root and the second child have acked. -/
theorem single_outcome_nack :
    ∃ t, Runs.run step newAckTree [.newSubTree [], .newSubTree [], .ack [], .ack [1],
        .nack [0] (), .ack [0], .contextDone] = some t ∧
      t.invoked = [.errFn (.nackError ())] := by
  obtain ⟨t₁, ht₁⟩ : ∃ t₁, Runs.run step newAckTree ([.newSubTree [], .newSubTree [], .ack [],
      .ack [1]] : List (Op Unit)) = some t₁ := Option.isSome_iff_exists.mp (by decide)
  obtain ⟨t, ht⟩ : ∃ t, Runs.run step newAckTree ([.newSubTree [], .newSubTree [], .ack [],
      .ack [1], .nack [0] (), .ack [0], .contextDone] : List (Op Unit)) = some t :=
    Option.isSome_iff_exists.mp (by decide)
  have hinv : (Runs.run step newAckTree ([.newSubTree [], .newSubTree [], .ack [],
      .ack [1]] : List (Op Unit))).map invoked = some [] := by decide
  have hc : (Runs.run step newAckTree ([.newSubTree [], .newSubTree [], .ack [],
      .ack [1]] : List (Op Unit))).map (fun t => decide (t.Created [0])) = some true := by decide
  rw [ht₁] at hinv hc
  refine ⟨t, ht, single_outcome.2 [.newSubTree [], .newSubTree [], .ack [], .ack [1]]
    [.ack [0], .contextDone] [0] () t₁ t (by decide) ht₁ (by simpa using hinv)
    ⟨[0], List.suffix_refl _, by simpa using hc, by decide⟩ ht⟩

end AckTree
