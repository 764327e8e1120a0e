/-
# The tally of an ack tree

The invariant behind every result about ack trees.  At a node that is not complete
the count is `k` own acks plus one for each complete child, with `k = 0` exactly when
the node has not acked itself; the count stays below `numAckExpected`, and a node
becomes complete only once it has acked itself.

`Tally once debt t` is this invariant in the middle of a call: `debt = some n` says
that `n` still has to count the ack it owes (its own, or that of a child that has just
become complete).  `ack` pays the debt node by node on the way to the root
(`Tally.ackNode`), which is the only induction over a path that the invariant needs.

With `once = true` the invariant adds `k ≤ 1`, and that the children of a complete
node are complete.  Every call keeps `Tally false none`; a call of `Ack` keeps
`Tally true none` as long as the node has not acked itself before or is complete.
-/
import Ears.AckTree

namespace AckTree

variable {ε : Type} {t t' : AckTree ε} {n m p : NodeId} {i : ℕ} {b : Bool}

/-! ## Fields that a call leaves alone -/

/-- A field that neither counting an ack nor completing a node changes is the same after
a call.  Only the first node of the path can note an own ack. -/
theorem ackNode_field {β : Type} (g : AckNode → β) (hdone : ∀ v, g { v with completed := true } = g v)
    (hcount : ∀ (v : AckNode) (b' : Bool), (b' = true → b = true) →
      g { v with count := v.count + 1, selfAcked := b' || v.selfAcked } = g v)
    (err : Option (AckError ε)) (m : NodeId) : g ((ackNode n b err t).node m) = g (t.node m) := by
  induction n generalizing t b with
  | nil =>
      unfold ackNode
      split
      · rfl
      · by_cases hm : m = []
        · subst hm
          cases err with
          | some e => simp [hdone]
          | none =>
              dsimp only
              split
              · rw [markComplete_node_root, hdone, invoke_node, countAck_node_self]
                exact hcount _ _ id
              · rw [countAck_node_self]
                exact hcount _ _ id
        · cases err with
          | some e => rw [markComplete_node_of_ne _ hm, invoke_node]
          | none =>
              dsimp only
              split
              · rw [markComplete_node_of_ne _ hm, invoke_node, countAck_node_of_ne _ _ hm]
              · rw [countAck_node_of_ne _ _ hm]
  | cons i p ih =>
      have hfalse : ∀ (v : AckNode) (b' : Bool), (b' = true → false = true) →
          g { v with count := v.count + 1, selfAcked := b' || v.selfAcked } = g v :=
        fun v b' hb => hcount v b' fun h => absurd (hb h) (by simp)
      unfold ackNode
      split
      · rfl
      · cases err with
        | some e => exact ih hfalse
        | none =>
            dsimp only
            by_cases hm : m = i :: p
            · subst hm
              split
              · rw [setCompleted_node_self, hdone, ih hfalse, countAck_node_self]
                exact hcount _ _ id
              · rw [countAck_node_self]
                exact hcount _ _ id
            · split
              · rw [setCompleted_node_of_ne _ hm, ih hfalse, countAck_node_of_ne _ _ hm]
              · rw [countAck_node_of_ne _ _ hm]

/-- No ack or nack changes the number of expected acks. -/
theorem ackNode_numAckExpected (err : Option (AckError ε)) (m : NodeId) :
    ((ackNode n b err t).node m).numAckExpected = (t.node m).numAckExpected :=
  ackNode_field AckNode.numAckExpected (fun _ => rfl) (fun _ _ _ => rfl) err m

/-- An ack passed up by a child changes no node's own ack. -/
theorem ackNode_false_selfAcked (err : Option (AckError ε)) (m : NodeId) :
    ((ackNode n false err t).node m).selfAcked = (t.node m).selfAcked :=
  ackNode_field AckNode.selfAcked (fun _ => rfl) (fun v b' hb => by cases b' <;> simp at hb ⊢) err m

/-- The nodes of a tree depend on the expected acks only. -/
theorem created_congr
    (h : ∀ m, (t'.node m).numAckExpected = (t.node m).numAckExpected) :
    t'.Created n ↔ t.Created n := by
  induction n with
  | nil => exact Iff.rfl
  | cons i p ih => simp only [Created, ih, h]

/-- An ack or nack creates no node. -/
theorem ackNode_created (err : Option (AckError ε)) :
    (ackNode n b err t).Created m ↔ t.Created m :=
  created_congr (ackNode_numAckExpected err)

/-- Nodes above a node that exists exist. -/
theorem Created.of_suffix (h : t.Created n) (hs : m <:+ n) : t.Created m := by
  induction n with
  | nil =>
      rw [List.suffix_nil.mp hs]
      exact trivial
  | cons i p ih =>
      rcases List.suffix_cons_iff.mp hs with rfl | hs
      · exact h
      · exact ih h.1 hs

/-! ## Open paths and nacks -/

/-- No node from `n` up to the root is complete. -/
def OpenPath (t : AckTree ε) (n : NodeId) : Prop :=
  ∀ m, m <:+ n → (t.node m).completed = false

instance decidableOpenPath (t : AckTree ε) (n : NodeId) : Decidable (t.OpenPath n) :=
  decidable_of_iff (∀ m ∈ n.tails, (t.node m).completed = false)
    (forall_congr' fun m => by rw [List.mem_tails])

theorem openPath_nil : t.OpenPath [] ↔ (t.node []).completed = false := by
  constructor
  · intro h
    exact h [] (List.suffix_refl _)
  · intro h m hm
    rw [List.suffix_nil.mp hm]
    exact h

theorem openPath_cons :
    t.OpenPath (i :: p) ↔ (t.node (i :: p)).completed = false ∧ t.OpenPath p := by
  unfold OpenPath
  simp only [List.suffix_cons_iff, forall_eq_or_imp]

theorem OpenPath.root (h : t.OpenPath n) : (t.node []).completed = false :=
  h [] (List.nil_suffix)

/-- A nack on an open path starts `errFn` and completes the root. -/
theorem ackNode_some_of_open (e : AckError ε) (h : t.OpenPath n) :
    ackNode n b (some e) t = (t.invoke (.errFn e)).markComplete := by
  induction n generalizing b with
  | nil =>
      unfold ackNode
      rw [if_neg (by simp [h.root])]
  | cons i p ih =>
      rw [openPath_cons] at h
      unfold ackNode
      rw [if_neg (by simp [h.1])]
      exact ih h.2

/-- A nack is lost at the first complete node on its way. -/
theorem ackNode_some_of_not_open (e : AckError ε) (h : ¬ t.OpenPath n) :
    ackNode n b (some e) t = t := by
  induction n generalizing b with
  | nil =>
      rw [openPath_nil] at h
      exact ackNode_of_completed (by simpa using h) _
  | cons i p ih =>
      rw [openPath_cons] at h
      by_cases hc : (t.node (i :: p)).completed = true
      · exact ackNode_of_completed hc _
      · unfold ackNode
        rw [if_neg hc]
        exact ih fun hp => h ⟨by simpa using hc, hp⟩

/-! ## Complete children -/

/-- The number of children of `n` that are complete. -/
def completedChildren (t : AckTree ε) (n : NodeId) : ℕ :=
  ((Finset.range ((t.node n).numAckExpected - 1)).filter fun i =>
    (t.node (i :: n)).completed = true).card

theorem completedChildren_congr
    (hexp : (t'.node n).numAckExpected = (t.node n).numAckExpected)
    (hdone : ∀ i, i + 1 < (t.node n).numAckExpected →
      (t'.node (i :: n)).completed = (t.node (i :: n)).completed) :
    t'.completedChildren n = t.completedChildren n := by
  unfold completedChildren
  rw [hexp]
  congr 1
  apply Finset.filter_congr
  intro i hi
  rw [Finset.mem_range] at hi
  rw [hdone i (by omega)]

/-- A node expects at least one ack more than it has children. -/
theorem completedChildren_lt (h : 1 ≤ (t.node n).numAckExpected) :
    t.completedChildren n < (t.node n).numAckExpected := by
  have hle : t.completedChildren n ≤ (t.node n).numAckExpected - 1 := by
    refine (Finset.card_filter_le _ _).trans ?_
    rw [Finset.card_range]
  omega

/-- All children are complete when their number says so, and conversely. -/
theorem completedChildren_eq_iff (h : 1 ≤ (t.node n).numAckExpected) :
    t.completedChildren n + 1 = (t.node n).numAckExpected ↔
      ∀ i, i + 1 < (t.node n).numAckExpected → (t.node (i :: n)).completed = true := by
  have hcard := Finset.card_filter_eq_iff (s := Finset.range ((t.node n).numAckExpected - 1))
    (p := fun i => (t.node (i :: n)).completed = true)
  rw [Finset.card_range] at hcard
  constructor
  · intro heq i hi
    refine hcard.mp ?_ i (Finset.mem_range.mpr (by omega))
    unfold completedChildren at heq
    omega
  · intro hall
    have := hcard.mpr fun i hi => hall i (by rw [Finset.mem_range] at hi; omega)
    unfold completedChildren
    omega

/-- Completing a child adds one. -/
theorem completedChildren_setCompleted (hi : i + 1 < (t.node p).numAckExpected)
    (h : (t.node (i :: p)).completed = false) :
    (t.setCompleted (i :: p)).completedChildren p = t.completedChildren p + 1 := by
  have hp : p ≠ i :: p := fun he => by simpa using congrArg List.length he
  unfold completedChildren
  rw [setCompleted_node_of_ne _ hp]
  have hins : (Finset.range ((t.node p).numAckExpected - 1)).filter
        (fun j => ((t.setCompleted (i :: p)).node (j :: p)).completed = true) =
      insert i ((Finset.range ((t.node p).numAckExpected - 1)).filter
        fun j => (t.node (j :: p)).completed = true) := by
    ext j
    simp only [Finset.mem_filter, Finset.mem_range, Finset.mem_insert]
    by_cases hj : j = i
    · subst hj
      rw [setCompleted_node_self]
      simp only [and_true, true_or, iff_true]
      omega
    · rw [setCompleted_node_of_ne _ (by simpa using hj)]
      simp [hj]
  rw [hins, Finset.card_insert_of_notMem]
  simp [h]

@[simp] theorem countAck_completedChildren (n m : NodeId) :
    (t.countAck n b).completedChildren m = t.completedChildren m := by
  have hfield : ∀ k, ((t.countAck n b).node k).completed = (t.node k).completed ∧
      ((t.countAck n b).node k).numAckExpected = (t.node k).numAckExpected := by
    intro k
    by_cases hk : k = n
    · subst hk
      simp
    · simp [countAck_node_of_ne _ _ hk]
  exact completedChildren_congr (hfield m).2 fun i _ => (hfield _).1

/-! ## The invariant -/

/-- The tally: see the head of this file. -/
structure Tally (once : Bool) (debt : Option NodeId) (t : AckTree ε) : Prop where
  expected_pos : ∀ n, 1 ≤ (t.node n).numAckExpected
  count_lt : ∀ n, (t.node n).completed = false →
    (t.node n).count < (t.node n).numAckExpected
  count_eq : ∀ n, (t.node n).completed = false →
    ∃ k, (k = 0 ↔ (t.node n).selfAcked = false) ∧ (once = true → k ≤ 1) ∧
      (t.node n).count + (if debt = some n then 1 else 0) = k + t.completedChildren n
  acked : ∀ n, (t.node n).completed = true → (n ≠ [] ∨ .completedFn ∈ t.invoked) →
    (t.node n).selfAcked = true ∧
      (once = true → t.completedChildren n + 1 = (t.node n).numAckExpected)
  outcome : t.invoked.length = if (t.node []).completed then 1 else 0
  wg_eq : t.wg = 1 - t.invoked.length

/-- The tally at one node. -/
structure TallyAt (once : Bool) (debt : Option NodeId) (t : AckTree ε) (n : NodeId) : Prop where
  expected_pos : 1 ≤ (t.node n).numAckExpected
  count_lt : (t.node n).completed = false → (t.node n).count < (t.node n).numAckExpected
  count_eq : (t.node n).completed = false →
    ∃ k, (k = 0 ↔ (t.node n).selfAcked = false) ∧ (once = true → k ≤ 1) ∧
      (t.node n).count + (if debt = some n then 1 else 0) = k + t.completedChildren n
  acked : (t.node n).completed = true → (n ≠ [] ∨ .completedFn ∈ t.invoked) →
    (t.node n).selfAcked = true ∧
      (once = true → t.completedChildren n + 1 = (t.node n).numAckExpected)

/-- A node that a call leaves alone, its children included, keeps its tally. -/
theorem TallyAt.congr {once : Bool} {debt debt' : Option NodeId} (h : TallyAt once debt t n)
    (hnode : t'.node n = t.node n) (hcc : t'.completedChildren n = t.completedChildren n)
    (hdebt : debt' = some n ↔ debt = some n)
    (hinv : n = [] → .completedFn ∈ t'.invoked → .completedFn ∈ t.invoked) :
    TallyAt once debt' t' n where
  expected_pos := by
    rw [hnode]
    exact h.expected_pos
  count_lt := by
    rw [hnode]
    exact h.count_lt
  count_eq := by
    rw [hnode, hcc]
    simp only [hdebt]
    exact h.count_eq
  acked := by
    rw [hnode, hcc]
    intro hcomp hor
    refine h.acked hcomp ?_
    by_cases hn : n = []
    · exact hor.imp_right (hinv hn)
    · exact Or.inl hn

/-- A complete node only has to account for its own ack and its children. -/
theorem TallyAt.of_completed {once : Bool} {debt : Option NodeId}
    (hpos : 1 ≤ (t.node n).numAckExpected) (hn : (t.node n).completed = true)
    (hacked : (n ≠ [] ∨ .completedFn ∈ t.invoked) → (t.node n).selfAcked = true ∧
      (once = true → t.completedChildren n + 1 = (t.node n).numAckExpected)) :
    TallyAt once debt t n where
  expected_pos := hpos
  count_lt := fun h => by simp [hn] at h
  count_eq := fun h => by simp [hn] at h
  acked := fun _ => hacked

namespace Tally

variable {once : Bool}

theorem tallyAt {debt : Option NodeId} (h : Tally once debt t) (n : NodeId) :
    TallyAt once debt t n :=
  ⟨h.expected_pos n, h.count_lt n, h.count_eq n, h.acked n⟩

theorem of_tallyAt {debt : Option NodeId} (h : ∀ n, TallyAt once debt t n)
    (hout : t.invoked.length = if (t.node []).completed then 1 else 0)
    (hwg : t.wg = 1 - t.invoked.length) : Tally once debt t :=
  ⟨fun n => (h n).expected_pos, fun n => (h n).count_lt, fun n => (h n).count_eq,
    fun n => (h n).acked, hout, hwg⟩

/-- A complete node pays no debt. -/
theorem of_completed (h : Tally once (some n) t) (hn : (t.node n).completed = true) :
    Tally once none t where
  expected_pos := h.expected_pos
  count_lt := h.count_lt
  count_eq := by
    intro m hm
    obtain ⟨k, hk, honce, heq⟩ := h.count_eq m hm
    have hne : some n ≠ some m := by
      intro he
      rw [Option.some.injEq] at he
      rw [he, hm] at hn
      simp at hn
    rw [if_neg hne] at heq
    exact ⟨k, hk, honce, by simpa using heq⟩
  acked := h.acked
  outcome := h.outcome
  wg_eq := h.wg_eq

/-- What the tally says about the node that owes: it has acked itself when the ack fills it. -/
theorem selfAcked_of_fill (h : Tally once (some n) t) (hn : (t.node n).completed = false)
    (heq : (t.node n).count + 1 = (t.node n).numAckExpected) :
    (t.node n).selfAcked = true ∧
      (once = true → t.completedChildren n + 1 = (t.node n).numAckExpected) := by
  obtain ⟨k, hk, honce, hcount⟩ := h.count_eq n hn
  rw [if_pos rfl, heq] at hcount
  have hlt := completedChildren_lt (h.expected_pos n)
  have hkne : k ≠ 0 := by omega
  refine ⟨by simpa [hk] using hkne, fun ho => ?_⟩
  have hle := honce ho
  omega

/-- Counting an ack pays the debt of a node that it does not fill. -/
theorem countAck (h : Tally once (some n) t) (hn : (t.node n).completed = false)
    (hne : (t.node n).count + 1 ≠ (t.node n).numAckExpected) :
    Tally once none (t.countAck n false) := by
  have hlt := h.count_lt n hn
  refine of_tallyAt (fun m => ?_) ?_ h.wg_eq
  · by_cases hm : m = n
    · subst hm
      obtain ⟨k, hk, honce, heq⟩ := h.count_eq m hn
      refine ⟨by simpa using h.expected_pos m, fun _ => ?_, fun _ => ?_, fun hcomp => ?_⟩
      · simp only [countAck_node_self]
        omega
      · rw [countAck_completedChildren]
        exact ⟨k, by simpa using hk, honce, by simpa using heq⟩
      · simp [hn] at hcomp
    · exact (h.tallyAt m).congr (countAck_node_of_ne _ _ hm) (countAck_completedChildren n m)
        (by simpa using fun he => hm he.symm) fun _ => id
  · have hroot : ((t.countAck n false).node []).completed = (t.node []).completed := by
      by_cases hm : [] = n
      · subst hm
        simp
      · rw [countAck_node_of_ne _ _ hm]
    rw [hroot]
    exact h.outcome

/-- The ack that fills a child completes it and leaves the parent in debt. -/
theorem fill_child (h : Tally once (some (i :: p)) t) (hi : i + 1 < (t.node p).numAckExpected)
    (hn : (t.node (i :: p)).completed = false)
    (heq : (t.node (i :: p)).count + 1 = (t.node (i :: p)).numAckExpected) :
    Tally once (some p) ((t.countAck (i :: p) false).setCompleted (i :: p)) := by
  have hp : p ≠ i :: p := fun he => by simpa using congrArg List.length he
  have hnode : ∀ m, m ≠ i :: p →
      ((t.countAck (i :: p) false).setCompleted (i :: p)).node m = t.node m := by
    intro m hm
    rw [setCompleted_node_of_ne _ hm, countAck_node_of_ne _ _ hm]
  have hccp : ((t.countAck (i :: p) false).setCompleted (i :: p)).completedChildren p =
      t.completedChildren p + 1 := by
    rw [completedChildren_setCompleted, countAck_completedChildren]
    · rwa [countAck_node_of_ne _ _ hp]
    · simpa using hn
  have hcc : ∀ m, m ≠ p →
      ((t.countAck (i :: p) false).setCompleted (i :: p)).completedChildren m =
        t.completedChildren m := by
    intro m hm
    refine completedChildren_congr ?_ fun j _ => ?_
    · by_cases hmi : m = i :: p
      · subst hmi
        simp
      · rw [hnode m hmi]
    · rw [hnode]
      intro he
      exact hm (List.cons.inj he).2
  -- a complete parent has only complete children, so it cannot be `p`
  have hparent : (t.node p).completed = true → (p ≠ [] ∨ .completedFn ∈ t.invoked) →
      once = false := by
    intro hcomp hor
    by_contra ho
    have hfull := (h.acked p hcomp hor).2 (by simpa using ho)
    have := (completedChildren_eq_iff (h.expected_pos p)).mp hfull i hi
    rw [hn] at this
    simp at this
  refine of_tallyAt (fun m => ?_) ?_ h.wg_eq
  · by_cases hm : m = i :: p
    · subst hm
      refine TallyAt.of_completed ?_ ?_ fun _ => ?_
      · simpa using h.expected_pos (i :: p)
      · simp
      · rw [hcc _ (Ne.symm hp)]
        simpa using h.selfAcked_of_fill hn heq
    · by_cases hmp : m = p
      · -- the child's debt is now the parent's, which has one complete child more
        subst hmp
        have hat := h.tallyAt m
        refine ⟨?_, ?_, ?_, ?_⟩
        · rw [hnode m hm]
          exact hat.expected_pos
        · rw [hnode m hm]
          exact hat.count_lt
        · rw [hnode m hm, hccp, if_pos rfl]
          intro hcomp
          obtain ⟨k, hk, honce, hcount⟩ := hat.count_eq hcomp
          rw [if_neg (by simp)] at hcount
          exact ⟨k, hk, honce, by omega⟩
        · rw [hnode m hm]
          intro hcomp hor
          refine ⟨(hat.acked hcomp hor).1, fun ho => ?_⟩
          rw [hparent hcomp hor] at ho
          simp at ho
      · exact (h.tallyAt m).congr (hnode m hm) (hcc m hmp)
          (by simp [Ne.symm hmp, Ne.symm hm]) fun _ => id
  · rw [hnode [] (by simp)]
    exact h.outcome

/-- While the root is open nothing has been started. -/
theorem invoked_eq_nil {debt : Option NodeId} (h : Tally once debt t)
    (hroot : (t.node []).completed = false) : t.invoked = [] := by
  have := h.outcome
  rw [hroot] at this
  simpa using this

/-- The ack that fills the root starts `completedFn`. -/
theorem fill_root (h : Tally once (some []) t) (hn : (t.node []).completed = false)
    (heq : (t.node []).count + 1 = (t.node []).numAckExpected) :
    Tally once none (((t.countAck [] false).invoke .completedFn).markComplete) := by
  have hnode : ∀ m, m ≠ [] →
      (((t.countAck [] false).invoke .completedFn).markComplete).node m = t.node m := by
    intro m hm
    rw [markComplete_node_of_ne _ hm, invoke_node, countAck_node_of_ne _ _ hm]
  have hcc : ∀ m, (((t.countAck [] false).invoke .completedFn).markComplete).completedChildren m =
      t.completedChildren m := by
    intro m
    refine completedChildren_congr ?_ fun j _ => ?_
    · by_cases hm : m = []
      · subst hm
        simp
      · rw [hnode m hm]
    · rw [hnode _ (by simp)]
  refine of_tallyAt (fun m => ?_) ?_ ?_
  · by_cases hm : m = []
    · subst hm
      refine TallyAt.of_completed ?_ ?_ fun _ => ?_
      · simpa using h.expected_pos []
      · simp
      · rw [hcc]
        simpa using h.selfAcked_of_fill hn heq
    · exact (h.tallyAt m).congr (hnode m hm) (hcc m) (by simpa using hm) fun he => absurd he hm
  · simp [h.invoked_eq_nil hn]
  · have := h.wg_eq
    rw [h.invoked_eq_nil hn] at this
    simp [markComplete, invoke, AckTree.countAck, setNode, this, h.invoked_eq_nil hn]

/-- **`ack` pays the debt**: what a node owes is counted there, or fills it and is owed by
its parent, up to the root. -/
theorem ackNode (h : Tally once (some n) t) (hc : t.Created n) :
    Tally once none (AckTree.ackNode n false none t) := by
  induction n generalizing t with
  | nil =>
      by_cases hn : (t.node []).completed = true
      · rw [ackNode_of_completed hn]
        exact h.of_completed hn
      · rw [Bool.not_eq_true] at hn
        by_cases heq : (t.node []).count + 1 = (t.node []).numAckExpected
        · rw [ackNode_root_of_count_eq hn heq]
          exact h.fill_root hn heq
        · rw [ackNode_of_count_ne hn heq]
          exact h.countAck hn heq
  | cons i p ih =>
      by_cases hn : (t.node (i :: p)).completed = true
      · rw [ackNode_of_completed hn]
        exact h.of_completed hn
      · rw [Bool.not_eq_true] at hn
        by_cases heq : (t.node (i :: p)).count + 1 = (t.node (i :: p)).numAckExpected
        · rw [ackNode_cons_fill hn heq]
          refine ih (h.fill_child hc.2 hn heq) ?_
          rw [created_congr (t := t)]
          · exact hc.1
          · intro m
            by_cases hm : m = i :: p
            · subst hm
              simp
            · rw [setCompleted_node_of_ne _ hm, countAck_node_of_ne _ _ hm]
        · rw [ackNode_of_count_ne hn heq]
          exact h.countAck hn heq

/-! ## Every call keeps the tally -/

theorem newAckTree : Tally once none (AckTree.newAckTree : AckTree ε) where
  expected_pos := fun _ => le_rfl
  count_lt := fun _ _ => Nat.one_pos
  count_eq := fun _ _ => ⟨0, by simp [AckTree.newAckTree], by simp, rfl⟩
  acked := fun _ h => by simp [AckTree.newAckTree] at h
  outcome := rfl
  wg_eq := rfl

/-- Noting an own ack leaves the node in debt. -/
theorem selfAck (h : Tally once none t) (hn : (t.node n).completed = false)
    (honce : once = true → (t.node n).selfAcked = false) :
    Tally once (some n) (t.setSelfAcked n) := by
  have hnode : ∀ m, m ≠ n → (t.setSelfAcked n).node m = t.node m :=
    fun m hm => setSelfAcked_node_of_ne hm
  have hfield : ∀ m, ((t.setSelfAcked n).node m).completed = (t.node m).completed ∧
      ((t.setSelfAcked n).node m).numAckExpected = (t.node m).numAckExpected ∧
      ((t.setSelfAcked n).node m).count = (t.node m).count := by
    intro m
    by_cases hm : m = n
    · subst hm
      simp
    · simp [hnode m hm]
  have hcc : ∀ m, (t.setSelfAcked n).completedChildren m = t.completedChildren m :=
    fun m => completedChildren_congr (hfield m).2.1 fun _ _ => (hfield _).1
  refine of_tallyAt (fun m => ?_) ?_ h.wg_eq
  · by_cases hm : m = n
    · subst hm
      refine ⟨?_, ?_, ?_, fun hcomp => ?_⟩
      · rw [(hfield m).2.1]
        exact h.expected_pos m
      · rw [(hfield m).1, (hfield m).2.1, (hfield m).2.2]
        exact h.count_lt m
      · rw [(hfield m).1, (hfield m).2.2, hcc]
        intro hcomp
        obtain ⟨k, hk, hk1, hcount⟩ := h.count_eq m hcomp
        rw [if_neg (by simp)] at hcount
        refine ⟨k + 1, by simp, fun ho => ?_, by rw [if_pos rfl]; omega⟩
        have := hk.mpr (honce ho)
        omega
      · rw [(hfield m).1, hn] at hcomp
        simp at hcomp
    · exact (h.tallyAt m).congr (hnode m hm) (hcc m) (by simpa using fun he => hm he.symm)
        fun _ => id
  · rw [(hfield []).1]
    exact h.outcome

/-- `Ack()` keeps the tally. -/
theorem ack (h : Tally once none t) (hc : t.Created n)
    (honce : once = true → (t.node n).selfAcked = false ∨ (t.node n).completed = true) :
    Tally once none (t.ack n) := by
  by_cases hn : (t.node n).completed = true
  · unfold AckTree.ack
    rw [ackNode_of_completed hn]
    exact h
  · rw [Bool.not_eq_true] at hn
    rw [ack_of_open hn]
    refine (h.selfAck hn fun ho => ?_).ackNode ?_
    · exact (honce ho).resolve_right (by simp [hn])
    · rw [created_congr (t := t)]
      · exact hc
      · intro m
        by_cases hm : m = n
        · subst hm
          simp
        · rw [setSelfAcked_node_of_ne hm]

/-- Completing an open root with an error keeps the tally. -/
theorem errFn (h : Tally once none t) (hroot : (t.node []).completed = false) (e : AckError ε) :
    Tally once none ((t.invoke (.errFn e)).markComplete) := by
  have hnode : ∀ m, m ≠ [] → ((t.invoke (.errFn e)).markComplete).node m = t.node m := by
    intro m hm
    rw [markComplete_node_of_ne _ hm, invoke_node]
  have hexp : ∀ m, (((t.invoke (.errFn e)).markComplete).node m).numAckExpected =
      (t.node m).numAckExpected := by
    intro m
    by_cases hm : m = []
    · subst hm
      simp
    · rw [hnode m hm]
  have hcc : ∀ m, ((t.invoke (.errFn e)).markComplete).completedChildren m =
      t.completedChildren m := by
    intro m
    refine completedChildren_congr (hexp m) fun j _ => ?_
    rw [hnode _ (by simp)]
  have hnil := h.invoked_eq_nil hroot
  refine of_tallyAt (fun m => ?_) ?_ ?_
  · by_cases hm : m = []
    · subst hm
      refine TallyAt.of_completed ?_ ?_ fun hor => ?_
      · rw [hexp]
        exact h.expected_pos []
      · simp
      · -- a root that ended with an error need not have acked itself
        simp [hnil] at hor
    · exact (h.tallyAt m).congr (hnode m hm) (hcc m) Iff.rfl fun he => absurd he hm
  · simp [hnil]
  · have := h.wg_eq
    rw [hnil] at this
    simp [markComplete, invoke, setNode, this, hnil]

/-- A nack keeps the tally. -/
theorem nack (h : Tally once none t) (n : NodeId) (err : ε) : Tally once none (t.nack n err) := by
  unfold AckTree.nack
  by_cases ho : t.OpenPath n
  · rw [ackNode_some_of_open _ ho]
    exact h.errFn ho.root _
  · rw [ackNode_some_of_not_open _ ho]
    exact h

/-- The end of the context keeps the tally. -/
theorem contextDone (h : Tally once none t) : Tally once none t.contextDone := by
  unfold AckTree.contextDone
  split
  · exact h
  · exact h.errFn (by simp_all) _

/-- `NewSubTree()` keeps the tally: a new child is one more expected ack. -/
theorem newSubTree (h : Tally once none t) (n : NodeId) : Tally once none (t.newSubTree n).1 := by
  unfold AckTree.newSubTree
  split
  · exact h
  · rename_i hself
    rw [Bool.not_eq_true] at hself
    dsimp only
    set c : NodeId := ((t.node n).numAckExpected - 1) :: n with hc
    set t' := (t.setNode n { t.node n with
      numAckExpected := (t.node n).numAckExpected + 1 }).setNode c {} with ht'
    have hcn : n ≠ c := fun he => by simpa [hc] using congrArg List.length he
    have hpos := h.expected_pos n
    have hchild : t'.node c = {} := setNode_node_self ..
    have hn : t'.node n = { t.node n with
        numAckExpected := (t.node n).numAckExpected + 1 } := by
      rw [ht', setNode_node_of_ne _ _ hcn, setNode_node_self]
    have hnode : ∀ m, m ≠ n → m ≠ c → t'.node m = t.node m := by
      intro m hmn hmc
      rw [ht', setNode_node_of_ne _ _ hmc, setNode_node_of_ne _ _ hmn]
    -- the new child is open, so the number of complete children stays
    have hccn : t'.completedChildren n = t.completedChildren n := by
      unfold completedChildren
      rw [hn]
      congr 1
      ext i
      simp only [Finset.mem_filter, Finset.mem_range]
      constructor
      · rintro ⟨hi, hdone⟩
        have hic : i :: n ≠ c := by
          intro he
          rw [he, hchild] at hdone
          simp at hdone
        have hin : i :: n ≠ n := fun he => by simpa using congrArg List.length he
        rw [hnode _ hin hic] at hdone
        refine ⟨?_, hdone⟩
        have : i ≠ (t.node n).numAckExpected - 1 := fun he => hic (by rw [he])
        omega
      · rintro ⟨hi, hdone⟩
        have hic : i :: n ≠ c := by
          intro he
          have := (List.cons.inj he).1
          omega
        have hin : i :: n ≠ n := fun he => by simpa using congrArg List.length he
        rw [hnode _ hin hic]
        exact ⟨by omega, hdone⟩
    have hccc : t'.completedChildren c = 0 := by
      unfold completedChildren
      rw [hchild]
      rfl
    have hcc : ∀ m, m ≠ n → m ≠ c → t'.completedChildren m = t.completedChildren m := by
      intro m hmn hmc
      refine completedChildren_congr (by rw [hnode m hmn hmc]) fun i _ => ?_
      have hic : i :: m ≠ c := fun he => hmn (List.cons.inj he).2
      by_cases hin : i :: m = n
      · rw [hin, hn]
      · rw [hnode _ hin hic]
    -- only a root that ended with an error is complete without its own ack
    have hopen : (t.node n).completed = true → ¬ (n ≠ [] ∨ .completedFn ∈ t.invoked) := by
      intro hcomp hor
      rw [(h.acked n hcomp hor).1] at hself
      simp at hself
    refine of_tallyAt (fun m => ?_) ?_ h.wg_eq
    · by_cases hmc : m = c
      · subst hmc
        refine ⟨by rw [hchild], fun _ => by simp [hchild], fun _ => ?_, fun hcomp => ?_⟩
        · rw [hchild, hccc]
          exact ⟨0, by simp, by simp, by simp⟩
        · rw [hchild] at hcomp
          simp at hcomp
      · by_cases hmn : m = n
        · subst hmn
          refine ⟨?_, ?_, ?_, ?_⟩
          · rw [hn]
            exact Nat.le_add_left ..
          · rw [hn]
            exact fun hcomp => Nat.lt_succ_of_lt (h.count_lt m hcomp)
          · rw [hn, hccn]
            exact h.count_eq m
          · rw [hn]
            exact fun hcomp hor => absurd hor (hopen hcomp)
        · exact (h.tallyAt m).congr (hnode m hmn hmc) (hcc m hmn hmc) Iff.rfl fun _ => id
    · have hroot : (t'.node []).completed = (t.node []).completed := by
        by_cases hmn : [] = n
        · rw [hmn, hn]
        · rw [hnode [] hmn (by simp [hc])]
      rw [hroot]
      exact h.outcome

/-- **Every call keeps the tally**; for `Tally true` a call of `Ack` has to come from a node
that has not acked itself yet, or that is complete. -/
theorem step {op : Op ε} (h : Tally once none t)
    (honce : ∀ n, op = .ack n → once = true →
      (t.node n).selfAcked = false ∨ (t.node n).completed = true)
    (hs : t.step op = some t') : Tally once none t' := by
  rcases step_cases hs with ⟨n, rfl, hc, rfl⟩ | ⟨n, err, rfl, -, rfl⟩ | ⟨n, rfl, -, rfl⟩ |
    ⟨rfl, rfl⟩
  · exact h.ack hc (honce n rfl)
  · exact h.nack n err
  · exact h.newSubTree n
  · exact h.contextDone

/-- Every state of every run has the tally. -/
theorem of_run {ops : List (Op ε)} (hrun : Runs.run AckTree.step AckTree.newAckTree ops = some t) :
    Tally false none t :=
  Runs.run_induction (fun _ _ _ h hs => h.step (by simp) hs) newAckTree hrun

/-! ## What the tally says about whole subtrees -/

/-- Below a complete node everything is complete and has acked itself. -/
theorem below (h : Tally true none t) (hn : (t.node n).completed = true)
    (hor : n ≠ [] ∨ .completedFn ∈ t.invoked) (hnm : n <:+ m) (hm : t.Created m) :
    (t.node m).completed = true ∧ (t.node m).selfAcked = true := by
  induction m with
  | nil =>
      rw [List.suffix_nil.mp hnm] at hn hor
      exact ⟨hn, (h.acked [] hn hor).1⟩
  | cons i p ih =>
      rcases List.suffix_cons_iff.mp hnm with rfl | hnp
      · exact ⟨hn, (h.acked _ hn hor).1⟩
      · have hp : p ≠ [] ∨ .completedFn ∈ t.invoked := by
          by_cases hpn : p = []
          · subst hpn
            rwa [List.suffix_nil.mp hnp] at hor
          · exact Or.inl hpn
        have hfull := (h.acked p (ih hnp hm.1).1 hp).2 rfl
        have hi := (completedChildren_eq_iff (h.expected_pos p)).mp hfull i hm.2
        exact ⟨hi, (h.acked _ hi (Or.inl (by simp))).1⟩

/-- A node that has acked itself and whose children are complete is complete. -/
theorem completed_of_children (h : Tally true none t) (hself : (t.node n).selfAcked = true)
    (hchildren : ∀ i, i + 1 < (t.node n).numAckExpected → (t.node (i :: n)).completed = true) :
    (t.node n).completed = true := by
  by_contra hcomp
  rw [Bool.not_eq_true] at hcomp
  obtain ⟨k, hk, -, hcount⟩ := h.count_eq n hcomp
  have hfull := (completedChildren_eq_iff (h.expected_pos n)).mpr hchildren
  have hlt := h.count_lt n hcomp
  have hk0 : k ≠ 0 := by simp [hk, hself]
  rw [if_neg (by simp)] at hcount
  omega

/-- If every node has acked itself then every node is complete; `d` bounds the depth. -/
theorem all_completed (h : Tally true none t) {d : ℕ} (hd : ∀ m, t.Created m → m.length ≤ d)
    (hall : ∀ m, t.Created m → (t.node m).selfAcked = true) (hn : t.Created n) :
    (t.node n).completed = true := by
  -- from the leaves up: induction on the distance to the depth of the tree
  induction hk : d - n.length generalizing n with
  | zero =>
      refine h.completed_of_children (hall n hn) fun i hi => ?_
      have := hd (i :: n) ⟨hn, hi⟩
      rw [List.length_cons] at this
      omega
  | succ e ih =>
      refine h.completed_of_children (hall n hn) fun i hi => ?_
      exact ih (n := i :: n) ⟨hn, hi⟩ (by rw [List.length_cons]; omega)

end Tally

end AckTree
