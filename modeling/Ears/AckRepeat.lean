/-
# Repeated acks

`ack` does not look at `selfAcked`: a second `Ack` on a node that is still open is
counted like the ack of a child.  It is lost only when the node, or a node above it,
is complete.

* `Shadowed m t u`: the trees differ at most below the complete node `m`.  Such trees
  have the same future (`shadowed_step`), since nothing passes a complete node.
* `exists_distinguishing_acks`: on an open path one more ack does show.  Further acks
  bring every node of the path one ack short of complete; with the extra ack the last
  of them completes the whole path, without it none does.
-/
import Ears.AckOutcome

namespace AckTree

variable {ε : Type} {t u : AckTree ε} {n m k p : NodeId} {i : ℕ} {b : Bool}

/-! ## A call depends on the path only -/

/-- The trees agree on the path from `n` to the root and in what they have started. -/
def SamePath (n : NodeId) (t u : AckTree ε) : Prop :=
  (∀ j, j <:+ n → u.node j = t.node j) ∧ u.invoked = t.invoked

theorem SamePath.mono (h : SamePath n t u) (hk : k <:+ n) : SamePath k t u :=
  ⟨fun j hj => h.1 j (hj.trans hk), h.2⟩

theorem SamePath.countAck (h : SamePath n t u) :
    SamePath n (t.countAck n b) (u.countAck n b) := by
  refine ⟨fun j hj => ?_, h.2⟩
  by_cases hjn : j = n
  · subst hjn
    rw [countAck_node_self, countAck_node_self, h.1 j hj]
  · rw [countAck_node_of_ne _ _ hjn, countAck_node_of_ne _ _ hjn, h.1 j hj]

theorem SamePath.setCompleted (h : SamePath n t u) :
    SamePath n (t.setCompleted n) (u.setCompleted n) := by
  refine ⟨fun j hj => ?_, h.2⟩
  by_cases hjn : j = n
  · subst hjn
    rw [setCompleted_node_self, setCompleted_node_self, h.1 j hj]
  · rw [setCompleted_node_of_ne _ hjn, setCompleted_node_of_ne _ hjn, h.1 j hj]

theorem SamePath.complete_root (h : SamePath [] t u) (f : Invocation ε) :
    SamePath [] (t.invoke f).markComplete (u.invoke f).markComplete := by
  refine ⟨fun j hj => ?_, ?_⟩
  · rw [List.suffix_nil.mp hj]
    simp [h.1 [] (List.suffix_refl _)]
  · simp [h.2]

/-- An ack on a node keeps agreement on its path. -/
theorem SamePath.ackNode_none (h : SamePath n t u) :
    SamePath n (ackNode n b none t) (ackNode n b none u) := by
  induction n generalizing t u b with
  | nil =>
      have hroot := h.1 [] (List.suffix_refl _)
      by_cases hn : (t.node []).completed = true
      · rw [ackNode_of_completed hn, ackNode_of_completed (by rwa [hroot])]
        exact h
      · rw [Bool.not_eq_true] at hn
        by_cases heq : (t.node []).count + 1 = (t.node []).numAckExpected
        · rw [ackNode_root_of_count_eq hn heq,
            ackNode_root_of_count_eq (by rwa [hroot]) (by rwa [hroot])]
          exact h.countAck.complete_root _
        · rw [ackNode_of_count_ne hn heq, ackNode_of_count_ne (by rwa [hroot]) (by rwa [hroot])]
          exact h.countAck
  | cons i p ih =>
      have hself := h.1 (i :: p) (List.suffix_refl _)
      by_cases hn : (t.node (i :: p)).completed = true
      · rw [ackNode_of_completed hn, ackNode_of_completed (by rwa [hself])]
        exact h
      · rw [Bool.not_eq_true] at hn
        by_cases heq : (t.node (i :: p)).count + 1 = (t.node (i :: p)).numAckExpected
        · rw [ackNode_cons_fill hn heq, ackNode_cons_fill (by rwa [hself]) (by rwa [hself])]
          have hnext := h.countAck (b := b).setCompleted
          have hp := ih (b := false) (hnext.mono (List.suffix_cons i p))
          have hns : ¬ i :: p <:+ p := fun hs => by simpa using hs.length_le
          refine ⟨fun j hj => ?_, hp.2⟩
          rcases List.suffix_cons_iff.mp hj with rfl | hjp
          · rw [ackNode_node_of_not_suffix _ hns, ackNode_node_of_not_suffix _ hns]
            exact hnext.1 _ (List.suffix_refl _)
          · exact hp.1 j hjp
        · rw [ackNode_of_count_ne hn heq, ackNode_of_count_ne (by rwa [hself]) (by rwa [hself])]
          exact h.countAck

/-- `Ack()` on a node of the path keeps agreement on the whole path. -/
theorem SamePath.ack (h : SamePath n t u) (hk : k <:+ n) : SamePath n (t.ack k) (u.ack k) := by
  have hk' := (h.mono hk).ackNode_none (b := true)
  refine ⟨fun j hj => ?_, hk'.2⟩
  by_cases hjk : j <:+ k
  · exact hk'.1 j hjk
  · unfold AckTree.ack
    rw [ackNode_node_of_not_suffix _ hjk, ackNode_node_of_not_suffix _ hjk, h.1 j hj]

/-! ## Below a complete node nothing shows -/

/-- An ack below a complete node stays below it and starts nothing. -/
theorem ackNode_below (hm : (t.node m).completed = true) (hmn : m <:+ n) :
    (∀ j, ¬ m <:+ j → (ackNode n b none t).node j = t.node j) ∧
      (ackNode n b none t).invoked = t.invoked := by
  induction n generalizing t b with
  | nil =>
      rw [List.suffix_nil.mp hmn] at hm
      rw [ackNode_of_completed hm]
      exact ⟨fun _ _ => rfl, rfl⟩
  | cons i p ih =>
      by_cases hn : (t.node (i :: p)).completed = true
      · rw [ackNode_of_completed hn]
        exact ⟨fun _ _ => rfl, rfl⟩
      · have hmp : m <:+ p := by
          rcases List.suffix_cons_iff.mp hmn with rfl | hmp
          · exact absurd hm hn
          · exact hmp
        have hne : m ≠ i :: p := by
          rintro rfl
          exact hn hm
        have hoff : ∀ j, ¬ m <:+ j → j ≠ i :: p := by
          rintro j hj rfl
          exact hj hmn
        rw [Bool.not_eq_true] at hn
        by_cases heq : (t.node (i :: p)).count + 1 = (t.node (i :: p)).numAckExpected
        · rw [ackNode_cons_fill hn heq]
          obtain ⟨hnode, hinv⟩ := ih (b := false)
            (t := (t.countAck (i :: p) b).setCompleted (i :: p))
            (by rwa [setCompleted_node_of_ne _ hne, countAck_node_of_ne _ _ hne]) hmp
          refine ⟨fun j hj => ?_, hinv⟩
          rw [hnode j hj, setCompleted_node_of_ne _ (hoff j hj),
            countAck_node_of_ne _ _ (hoff j hj)]
        · rw [ackNode_of_count_ne hn heq]
          exact ⟨fun j hj => countAck_node_of_ne _ _ (hoff j hj), rfl⟩

/-- The trees differ at most below the node `m`, which is complete in both. -/
structure Shadowed (m : NodeId) (t u : AckTree ε) : Prop where
  expected : ∀ j, (u.node j).numAckExpected = (t.node j).numAckExpected
  acked : ∀ j, (u.node j).selfAcked = (t.node j).selfAcked
  off : ∀ j, ¬ m <:+ j → u.node j = t.node j
  done : (t.node m).completed = true ∧ (u.node m).completed = true
  created : t.Created m
  tally : Tally false none t ∧ Tally false none u
  invoked : u.invoked = t.invoked

namespace Shadowed

/-- Away from `m` the trees have the same paths. -/
theorem samePath (h : Shadowed m t u) (hk : ¬ m <:+ k) : SamePath k t u :=
  ⟨fun j hj => h.off j fun hmj => hk (hmj.trans hj), h.invoked⟩

/-- A complete node of one tree has acked itself in both, unless it is the root. -/
theorem acked_or_open (h : Shadowed m t u) (hk : k ≠ []) :
    (t.node k).selfAcked = true ∨
      ((t.node k).completed = false ∧ (u.node k).completed = false) := by
  by_cases ht : (t.node k).completed = true
  · exact Or.inl (h.tally.1.acked k ht (Or.inl hk)).1
  · by_cases hu : (u.node k).completed = true
    · left
      rw [← h.acked k]
      exact (h.tally.2.acked k hu (Or.inl hk)).1
    · simp only [Bool.not_eq_true] at ht hu
      exact Or.inr ⟨ht, hu⟩

/-- `Ack()` sets the same own flags in both trees. -/
theorem ack_selfAcked_eq (h : Shadowed m t u) (k j : NodeId) :
    ((u.ack k).node j).selfAcked = ((t.ack k).node j).selfAcked := by
  rw [ack_selfAcked, ack_selfAcked, h.acked]
  by_cases hjk : j = k
  · subst hjk
    by_cases hj : j = []
    · subst hj
      have hroot : (u.node []).completed = (t.node []).completed := by
        by_cases hm : m = []
        · subst hm
          rw [h.done.1, h.done.2]
        · rw [h.off [] fun hs => hm (List.suffix_nil.mp hs)]
      rw [hroot]
    · rcases h.acked_or_open hj with hself | ⟨ht, hu⟩
      · simp [hself]
      · rw [ht, hu]
  · simp [hjk]

theorem ack (h : Shadowed m t u) (hk : t.Created k) (hku : u.Created k) :
    Shadowed m (t.ack k) (u.ack k) where
  expected := by
    intro j
    unfold AckTree.ack
    rw [ackNode_numAckExpected, ackNode_numAckExpected, h.expected]
  acked := h.ack_selfAcked_eq k
  off := by
    intro j hj
    by_cases hmk : m <:+ k
    · unfold AckTree.ack
      rw [(ackNode_below h.done.1 hmk).1 j hj, (ackNode_below h.done.2 hmk).1 j hj, h.off j hj]
    · by_cases hjk : j <:+ k
      · exact ((h.samePath hmk).ack (List.suffix_refl k)).1 j hjk
      · unfold AckTree.ack
        rw [ackNode_node_of_not_suffix _ hjk, ackNode_node_of_not_suffix _ hjk, h.off j hj]
  done := by
    unfold AckTree.ack
    rw [ackNode_node_of_completed _ h.done.1, ackNode_node_of_completed _ h.done.2]
    exact h.done
  created := (ackNode_created none).mpr h.created
  tally := ⟨h.tally.1.ack hk (by simp), h.tally.2.ack hku (by simp)⟩
  invoked := by
    by_cases hmk : m <:+ k
    · unfold AckTree.ack
      rw [(ackNode_below h.done.1 hmk).2, (ackNode_below h.done.2 hmk).2, h.invoked]
    · exact ((h.samePath hmk).ack (List.suffix_refl k)).2

/-- Both trees can be ended with an error when their roots are open. -/
theorem errFn (h : Shadowed m t u) (hroot : (t.node []).completed = false) (e : AckError ε) :
    Shadowed m (t.invoke (.errFn e)).markComplete (u.invoke (.errFn e)).markComplete := by
  have hm : m ≠ [] := by
    rintro rfl
    rw [h.done.1] at hroot
    simp at hroot
  have hur : u.node [] = t.node [] := h.off [] fun hs => hm (List.suffix_nil.mp hs)
  have hnode : ∀ v : AckTree ε, ∀ j, j ≠ [] →
      ((v.invoke (.errFn e)).markComplete).node j = v.node j := by
    intro v j hj
    rw [markComplete_node_of_ne _ hj, invoke_node]
  refine ⟨fun j => ?_, fun j => ?_, fun j hj => ?_, ?_, ?_, ?_, ?_⟩
  · by_cases hj : j = []
    · subst hj
      simp [hur]
    · rw [hnode t j hj, hnode u j hj, h.expected]
  · by_cases hj : j = []
    · subst hj
      simp [hur]
    · rw [hnode t j hj, hnode u j hj, h.acked]
  · by_cases hj' : j = []
    · subst hj'
      simp [hur]
    · rw [hnode t j hj', hnode u j hj', h.off j hj]
  · rw [hnode t m hm, hnode u m hm]
    exact h.done
  · refine (created_congr fun j => ?_).mpr h.created
    by_cases hj : j = []
    · subst hj
      simp
    · rw [hnode t j hj]
  · exact ⟨h.tally.1.errFn hroot e, h.tally.2.errFn (by rwa [hur]) e⟩
  · simp [h.invoked]

theorem nack (h : Shadowed m t u) (k : NodeId) (err : ε) :
    Shadowed m (t.nack k err) (u.nack k err) := by
  unfold AckTree.nack
  by_cases hmk : m <:+ k
  · rw [ackNode_some_of_not_open, ackNode_some_of_not_open]
    · exact h
    · intro ho
      simpa [h.done.2] using ho m hmk
    · intro ho
      simpa [h.done.1] using ho m hmk
  · have hsame := h.samePath hmk
    have hopen : u.OpenPath k ↔ t.OpenPath k :=
      forall₂_congr fun j hj => by rw [hsame.1 j hj]
    by_cases ho : t.OpenPath k
    · rw [ackNode_some_of_open _ ho, ackNode_some_of_open _ (hopen.mpr ho)]
      exact h.errFn ho.root _
    · rw [ackNode_some_of_not_open _ ho, ackNode_some_of_not_open _ (mt hopen.mp ho)]
      exact h

theorem contextDone (h : Shadowed m t u) : Shadowed m t.contextDone u.contextDone := by
  have hroot : (u.node []).completed = (t.node []).completed := by
    by_cases hm : m = []
    · subst hm
      rw [h.done.1, h.done.2]
    · rw [h.off [] fun hs => hm (List.suffix_nil.mp hs)]
  unfold AckTree.contextDone
  rw [hroot]
  split
  · exact h
  · exact h.errFn (by simp_all) _

theorem newSubTree (h : Shadowed m t u) (k : NodeId) :
    Shadowed m (t.newSubTree k).1 (u.newSubTree k).1 := by
  have htally := And.intro (h.tally.1.newSubTree k) (h.tally.2.newSubTree k)
  have hcreated := h.created.newSubTree k
  unfold AckTree.newSubTree at htally hcreated ⊢
  rw [h.acked] at htally ⊢
  split
  · exact h
  · rename_i hself
    rw [if_neg hself, if_neg hself] at htally
    rw [if_neg hself] at hcreated
    dsimp only at htally hcreated ⊢
    rw [h.expected] at htally ⊢
    set c : NodeId := ((t.node k).numAckExpected - 1) :: k with hc
    have hmc : m ≠ c := h.created.ne_newChild
    -- a field that the trees share before is shared after
    have hfield : ∀ {β : Type} (g : AckNode → β) (x : AckNode → AckNode), ∀ j,
        g (u.node j) = g (t.node j) → g (x (u.node k)) = g (x (t.node k)) →
        g (((u.setNode k (x (u.node k))).setNode c {}).node j) =
          g (((t.setNode k (x (t.node k))).setNode c {}).node j) := by
      intro β g x j hj hk
      by_cases hjc : j = c
      · rw [hjc, setNode_node_self, setNode_node_self]
      · rw [setNode_node_of_ne _ _ hjc, setNode_node_of_ne _ _ hjc]
        by_cases hjk : j = k
        · rw [hjk, setNode_node_self, setNode_node_self]
          exact hk
        · rw [setNode_node_of_ne _ _ hjk, setNode_node_of_ne _ _ hjk]
          exact hj
    have hdone : ∀ v : AckTree ε, (v.node m).completed = true →
        (((v.setNode k { v.node k with numAckExpected := (t.node k).numAckExpected + 1 }).setNode
          c {}).node m).completed = true := by
      intro v hv
      rw [setNode_node_of_ne _ _ hmc]
      by_cases hmk : m = k
      · rw [← hmk, setNode_node_self]
        exact hv
      · rwa [setNode_node_of_ne _ _ hmk]
    refine ⟨fun j => ?_, fun j => ?_, fun j hj => ?_, ⟨hdone t h.done.1, hdone u h.done.2⟩,
      hcreated, htally, h.invoked⟩
    · exact hfield AckNode.numAckExpected
        (fun v => { v with numAckExpected := (t.node k).numAckExpected + 1 }) j (h.expected j) rfl
    · exact hfield AckNode.selfAcked
        (fun v => { v with numAckExpected := (t.node k).numAckExpected + 1 }) j (h.acked j)
        (h.acked k)
    · by_cases hmk : m <:+ k
      · have hjc : j ≠ c := by
          rintro rfl
          exact hj (hmk.trans (List.suffix_cons _ _))
        have hjk : j ≠ k := by
          rintro rfl
          exact hj hmk
        rw [setNode_node_of_ne _ _ hjc, setNode_node_of_ne _ _ hjc, setNode_node_of_ne _ _ hjk,
          setNode_node_of_ne _ _ hjk, h.off j hj]
      · exact hfield id (fun v => { v with numAckExpected := (t.node k).numAckExpected + 1 }) j
          (h.off j hj) (by simp [h.off k hmk])

/-- Shadowed trees take the same calls and stay shadowed. -/
theorem step (h : Shadowed m t u) (op : Op ε) :
    Option.Rel (Shadowed m) (t.step op) (u.step op) := by
  have hcreated : ∀ k, u.Created k ↔ t.Created k := fun k => created_congr h.expected
  have hguard : ∀ (k : NodeId) (x y : AckTree ε), (t.Created k → Shadowed m x y) →
      Option.Rel (Shadowed m) (if t.Created k then some x else none)
        (if u.Created k then some y else none) := by
    intro k x y hxy
    by_cases hk : t.Created k
    · rw [if_pos hk, if_pos ((hcreated k).mpr hk)]
      exact Option.Rel.some (hxy hk)
    · rw [if_neg hk, if_neg (mt (hcreated k).mp hk)]
      exact Option.Rel.none
  cases op with
  | ack k => exact hguard k _ _ fun hk => h.ack hk ((hcreated k).mpr hk)
  | nack k err => exact hguard k _ _ fun _ => h.nack k err
  | newSubTree k => exact hguard k _ _ fun _ => h.newSubTree k
  | contextDone => exact Option.Rel.some h.contextDone

/-- Shadowed trees have the same future. -/
theorem same_future (h : Shadowed m t u) (cont : List (Op ε)) :
    (Runs.run AckTree.step u cont).map AckTree.invoked =
      (Runs.run AckTree.step t cont).map AckTree.invoked := by
  have hrel := Runs.run_simulation (fun s t a (hst : Shadowed m s t) => hst.step a) h cont
  generalize Runs.run AckTree.step t cont = x at hrel
  generalize Runs.run AckTree.step u cont = y at hrel
  cases hrel with
  | some h => simp [h.invoked]
  | none => rfl

end Shadowed

/-- One more `Ack` on a node below a complete node gives a shadowed tree. -/
theorem shadowed_ack (h : Tally false none t) (hn : t.Created n)
    (hself : (t.node n).selfAcked = true ∨ (t.node n).completed = true) (hmn : m <:+ n)
    (hm : (t.node m).completed = true) : Shadowed m t (t.ack n) where
  expected := ackNode_numAckExpected none
  acked := by
    intro j
    rw [ack_selfAcked]
    by_cases hj : j = n
    · subst hj
      rcases hself with hs | hc
      · simp [hs]
      · simp [hc]
    · simp [hj]
  off := (ackNode_below hm hmn).1
  done := by
    refine ⟨hm, ?_⟩
    unfold ack
    rwa [ackNode_node_of_completed _ hm]
  created := hn.of_suffix hmn
  tally := ⟨h, h.ack hn (by simp)⟩
  invoked := (ackNode_below hm hmn).2

/-! ## On an open path one more ack shows -/

/-- `Ack()` on several nodes in turn. -/
def acks (t : AckTree ε) (js : List NodeId) : AckTree ε := js.foldl ack t

@[simp] theorem acks_nil : t.acks [] = t := rfl

@[simp] theorem acks_cons (j : NodeId) (js : List NodeId) : t.acks (j :: js) = (t.ack j).acks js :=
  rfl

theorem acks_append (js ks : List NodeId) : t.acks (js ++ ks) = (t.acks js).acks ks :=
  List.foldl_append ..

theorem run_acks {js : List NodeId} (h : ∀ j ∈ js, t.Created j) :
    Runs.run step t (js.map .ack) = some (t.acks js) := by
  induction js generalizing t with
  | nil => rfl
  | cons j js ih =>
      rw [List.map_cons, Runs.run_cons, step, if_pos (h j List.mem_cons_self)]
      exact ih fun k hk => (ackNode_created none).mpr (h k (List.mem_cons_of_mem _ hk))

theorem SamePath.acks {js : List NodeId} (h : SamePath n t u) (hjs : ∀ j ∈ js, j <:+ n) :
    SamePath n (t.acks js) (u.acks js) := by
  induction js generalizing t u with
  | nil => exact h
  | cons j js ih =>
      exact ih (h.ack (hjs j List.mem_cons_self)) fun k hk => hjs k (List.mem_cons_of_mem _ hk)

/-- Acks that do not fill a node only raise its count. -/
theorem acks_replicate (hn : (t.node n).completed = false) {c : ℕ}
    (hc : (t.node n).count + c < (t.node n).numAckExpected) :
    ((t.acks (List.replicate c n)).node n).completed = false ∧
      ((t.acks (List.replicate c n)).node n).count = (t.node n).count + c ∧
      ((t.acks (List.replicate c n)).node n).numAckExpected = (t.node n).numAckExpected ∧
      (∀ j, j ≠ n → (t.acks (List.replicate c n)).node j = t.node j) ∧
      (t.acks (List.replicate c n)).invoked = t.invoked := by
  induction c generalizing t with
  | zero => simp [hn]
  | succ c ih =>
      have hack : t.ack n = t.countAck n true := ackNode_of_count_ne hn (by omega)
      rw [List.replicate_succ, acks_cons, hack]
      obtain ⟨h1, h2, h3, h4, h5⟩ := ih (t := t.countAck n true) (by simpa using hn)
        (by simp only [countAck_node_self]; omega)
      refine ⟨h1, ?_, ?_, fun j hj => ?_, h5⟩
      · rw [h2]
        simp only [countAck_node_self]
        omega
      · rw [h3]
        simp
      · rw [h4 j hj, countAck_node_of_ne _ _ hj]

/-- Every node of the path is open and one ack short of complete. -/
def Ready (t : AckTree ε) (n : NodeId) : Prop :=
  ∀ j, j <:+ n → (t.node j).completed = false ∧ (t.node j).count + 1 = (t.node j).numAckExpected

/-- On a path that is ready, one ack completes the tree. -/
theorem Ready.ackNode_invoked (h : t.Ready n) :
    (ackNode n b none t).invoked = t.invoked ++ [.completedFn] := by
  induction n generalizing t b with
  | nil =>
      obtain ⟨hn, heq⟩ := h [] (List.suffix_refl _)
      rw [ackNode_root_of_count_eq hn heq]
      rfl
  | cons i p ih =>
      obtain ⟨hn, heq⟩ := h (i :: p) (List.suffix_refl _)
      rw [ackNode_cons_fill hn heq]
      refine (ih (b := false) fun j hj => ?_).trans rfl
      have hji : j ≠ i :: p := by
        rintro rfl
        simpa using hj.length_le
      rw [setCompleted_node_of_ne _ hji, countAck_node_of_ne _ _ hji]
      exact h j (hj.trans (List.suffix_cons i p))

/-- Acks on an open path can bring it one ack short of complete, from the root down. -/
theorem exists_acks_ready (ho : t.OpenPath n)
    (hlt : ∀ j, j <:+ n → (t.node j).count < (t.node j).numAckExpected) :
    ∃ js, (∀ j ∈ js, j <:+ n) ∧ (t.acks js).Ready n ∧ (t.acks js).invoked = t.invoked ∧
      ∀ j, ¬ j <:+ n → (t.acks js).node j = t.node j := by
  induction n with
  | nil =>
      have hroot := hlt [] (List.suffix_refl _)
      obtain ⟨h1, h2, h3, h4, h5⟩ := acks_replicate ho.root
        (c := (t.node []).numAckExpected - (t.node []).count - 1) (by omega)
      refine ⟨_, fun j hj => ?_, fun j hj => ?_, h5, fun j hj => h4 j ?_⟩
      · rw [List.eq_of_mem_replicate hj]
      · rw [List.suffix_nil.mp hj]
        refine ⟨h1, ?_⟩
        rw [h2, h3]
        omega
      · rintro rfl
        exact hj (List.suffix_refl _)
  | cons i p ih =>
      rw [openPath_cons] at ho
      -- first the nodes above, whose acks do not touch this one
      obtain ⟨js, hjs, hready, hinv, hoff⟩ := ih ho.2 fun j hj =>
        hlt j (hj.trans (List.suffix_cons i p))
      have hns : ¬ i :: p <:+ p := fun hs => by simpa using hs.length_le
      have hnode := hoff (i :: p) hns
      obtain ⟨c, hc⟩ := Nat.exists_eq_add_of_lt (hlt (i :: p) (List.suffix_refl _))
      obtain ⟨h1, h2, h3, h4, h5⟩ := acks_replicate (t := t.acks js) (n := i :: p) (c := c)
        (by rw [hnode]; exact ho.1) (by rw [hnode]; omega)
      rw [hnode] at h2 h3
      refine ⟨js ++ List.replicate c (i :: p), fun j hj => ?_, fun j hj => ?_, ?_, fun j hj => ?_⟩
      · rcases List.mem_append.mp hj with hj | hj
        · exact (hjs j hj).trans (List.suffix_cons i p)
        · rw [List.eq_of_mem_replicate hj]
      · rw [acks_append]
        rcases List.suffix_cons_iff.mp hj with rfl | hjp
        · refine ⟨h1, ?_⟩
          rw [h2, h3]
          omega
        · have hji : j ≠ i :: p := by
            rintro rfl
            exact hns hjp
          rw [h4 j hji]
          exact hready j hjp
      · rw [acks_append, h5, hinv]
      · have hji : j ≠ i :: p := by
          rintro rfl
          exact hj (List.suffix_refl _)
        rw [acks_append, h4 j hji, hoff j fun hs => hj (hs.trans (List.suffix_cons i p))]

/-- Acks write no node off their paths. -/
theorem acks_node_of_not_suffix {js : List NodeId} (h : ∀ j ∈ js, ¬ m <:+ j) :
    (t.acks js).node m = t.node m := by
  induction js generalizing t with
  | nil => rfl
  | cons j js ih =>
      rw [acks_cons, ih fun k hk => h k (List.mem_cons_of_mem _ hk)]
      exact ackNode_node_of_not_suffix none (h j List.mem_cons_self)

/-- The nodes above `n` can be brought one ack short of complete without touching `n`; the
acks that do so depend on the nodes above `n` only. -/
theorem exists_acks_ready_above (ho : t.OpenPath n)
    (hlt : ∀ j, j <:+ n → (t.node j).count < (t.node j).numAckExpected) :
    ∃ js, (∀ j ∈ js, j <:+ n ∧ ¬ n <:+ j) ∧ ∀ v : AckTree ε,
      (∀ j, j <:+ n → j ≠ n → v.node j = t.node j) → v.invoked = t.invoked →
      (v.acks js).invoked = t.invoked ∧
      ∀ j, j <:+ n → j ≠ n → ((v.acks js).node j).completed = false ∧
        ((v.acks js).node j).count + 1 = ((v.acks js).node j).numAckExpected := by
  cases n with
  | nil =>
      refine ⟨[], by simp, fun v _ hinv => ⟨hinv, fun j hj hne => ?_⟩⟩
      exact absurd (List.suffix_nil.mp hj) hne
  | cons i p =>
      have hp := List.suffix_cons i p
      have hns : ∀ j, j <:+ p → ¬ i :: p <:+ j := fun j hj hs => by
        simpa using (hs.trans hj).length_le
      obtain ⟨js, hjs, hready, hinv, -⟩ := exists_acks_ready (openPath_cons.mp ho).2
        fun j hj => hlt j (hj.trans hp)
      refine ⟨js, fun j hj => ⟨(hjs j hj).trans hp, hns j (hjs j hj)⟩, fun v hv hvinv => ?_⟩
      have hsame : SamePath p t v := by
        refine ⟨fun j hj => hv j (hj.trans hp) ?_, hvinv⟩
        rintro rfl
        exact hns _ hj (List.suffix_refl _)
      have hacks := hsame.acks hjs
      refine ⟨hacks.2.trans hinv, fun j hj hne => ?_⟩
      have hjp := (List.suffix_cons_iff.mp hj).resolve_left hne
      rw [hacks.1 j hjp]
      exact hready j hjp

/-- The case of `exists_distinguishing_acks` in which the extra ack does not fill `n`. -/
theorem exists_distinguishing_of_count_ne (ho : t.OpenPath n)
    (hlt : ∀ j, j <:+ n → (t.node j).count < (t.node j).numAckExpected)
    (hne : (t.node n).count + 1 ≠ (t.node n).numAckExpected)
    (hu : SamePath n (ackNode n false none t) u) :
    ∃ js, (∀ j ∈ js, j <:+ n) ∧ (t.acks js).invoked ≠ (u.acks js).invoked := by
  have hself := List.suffix_refl n
  have hn := ho n hself
  rw [ackNode_of_count_ne hn hne] at hu
  obtain ⟨js, hjs, habove⟩ := exists_acks_ready_above ho hlt
  have hnode : ∀ v : AckTree ε, (v.acks js).node n = v.node n :=
    fun v => acks_node_of_not_suffix fun j hj => (hjs j hj).2
  obtain ⟨c, hc⟩ : ∃ c, (t.node n).numAckExpected = (t.node n).count + (c + 1) + 1 := by
    have := hlt n hself
    exact ⟨(t.node n).numAckExpected - (t.node n).count - 2, by omega⟩
  -- without the extra ack `c + 1` acks leave `n` one short
  obtain ⟨hinv, -⟩ := habove t (fun _ _ _ => rfl) rfl
  obtain ⟨-, -, -, -, hplain⟩ := acks_replicate (t := t.acks js) (n := n) (c := c + 1)
    (by rw [hnode]; exact hn) (by rw [hnode]; omega)
  -- with it `c` acks do, and the last one completes the path
  obtain ⟨hinv', hready⟩ := habove (t.countAck n false)
    (fun j _ hj => countAck_node_of_ne _ _ hj) rfl
  obtain ⟨h1, h2, h3, h4, h5⟩ := acks_replicate (t := (t.countAck n false).acks js) (n := n)
    (c := c) (by rw [hnode]; simpa using hn)
    (by rw [hnode]; simp only [countAck_node_self]; omega)
  have hpath : (((t.countAck n false).acks js).acks (List.replicate c n)).Ready n := by
    intro j hj
    by_cases hjn : j = n
    · subst hjn
      refine ⟨h1, ?_⟩
      rw [h2, h3, hnode]
      simp only [countAck_node_self]
      omega
    · rw [h4 j hjn]
      exact hready j hj hjn
  have hfull : (((t.countAck n false).acks js).acks (List.replicate (c + 1) n)).invoked =
      t.invoked ++ [.completedFn] := by
    rw [List.replicate_succ', acks_append, acks_cons, acks_nil, ack, hpath.ackNode_invoked, h5,
      hinv']
  have hmem : ∀ j ∈ js ++ List.replicate (c + 1) n, j <:+ n := by
    intro j hj
    rcases List.mem_append.mp hj with hj | hj
    · exact (hjs j hj).1
    · rw [List.eq_of_mem_replicate hj]
  refine ⟨js ++ List.replicate (c + 1) n, hmem, ?_⟩
  rw [(hu.acks hmem).2, acks_append, acks_append, hplain, hinv, hfull]
  simp

/-- **On an open path one more ack shows**: some further acks on the path complete the tree
with it and do not complete it without it. -/
theorem exists_distinguishing_acks (ho : t.OpenPath n)
    (hlt : ∀ j, j <:+ n → (t.node j).count < (t.node j).numAckExpected)
    (hu : SamePath n (ackNode n false none t) u) :
    ∃ js, (∀ j ∈ js, j <:+ n) ∧ (t.acks js).invoked ≠ (u.acks js).invoked := by
  induction n generalizing t with
  | nil =>
      by_cases heq : (t.node []).count + 1 = (t.node []).numAckExpected
      · refine ⟨[], by simp, ?_⟩
        rw [acks_nil, acks_nil, hu.2, ackNode_root_of_count_eq ho.root heq]
        simp
      · exact exists_distinguishing_of_count_ne ho hlt heq hu
  | cons i p ih =>
      by_cases heq : (t.node (i :: p)).count + 1 = (t.node (i :: p)).numAckExpected
      · -- the extra ack completes `i :: p` and shows on the path of `p`
        have hp := List.suffix_cons i p
        rw [openPath_cons] at ho
        rw [ackNode_cons_fill ho.1 heq] at hu
        have hsame : SamePath p t ((t.countAck (i :: p) false).setCompleted (i :: p)) := by
          refine ⟨fun j hj => ?_, rfl⟩
          have hji : j ≠ i :: p := by
            rintro rfl
            simpa using hj.length_le
          rw [setCompleted_node_of_ne _ hji, countAck_node_of_ne _ _ hji]
        have hstep := hsame.ackNode_none (b := false)
        have hu' := hu.mono hp
        obtain ⟨js, hjs, hne⟩ := ih ho.2 (fun j hj => hlt j (hj.trans hp))
          ⟨fun j hj => (hu'.1 j hj).trans (hstep.1 j hj), hu'.2.trans hstep.2⟩
        exact ⟨js, fun j hj => (hjs j hj).trans hp, hne⟩
      · exact exists_distinguishing_of_count_ne ho hlt heq hu

/-! ## When a repeated ack is harmless -/

/-- The guard of a repeated `Ack`: a node that has acked itself is acked again only when it,
or a node above it, is complete. -/
def AckGuard (t : AckTree ε) : Op ε → Prop
  | .ack n => (t.node n).selfAcked = true → ¬ t.OpenPath n
  | _ => True

instance decidableAckGuard (t : AckTree ε) : (op : Op ε) → Decidable (t.AckGuard op)
  | .ack n => inferInstanceAs (Decidable ((t.node n).selfAcked = true → ¬ t.OpenPath n))
  | .nack _ _ => isTrue trivial
  | .newSubTree _ => isTrue trivial
  | .contextDone => isTrue trivial

/-- Either `errFn` has been started, or every node has been acked at most once. -/
theorem sound_of_guarded {ops : List (Op ε)} (hrun : Runs.run step newAckTree ops = some t)
    (hguard : Runs.Along step AckGuard newAckTree ops) :
    (∃ e, t.invoked = [.errFn e]) ∨ Tally true none t := by
  have h := Runs.run_induction_along
    (P := fun t : AckTree ε =>
      Tally false none t ∧ ((∃ e, t.invoked = [.errFn e]) ∨ Tally true none t))
    ?_ ⟨Tally.newAckTree, Or.inr Tally.newAckTree⟩ hguard hrun
  · exact h.2
  · rintro s op s' ⟨hs, hor⟩ hg hstep
    have hs' := hs.step (by simp) hstep
    refine ⟨hs', ?_⟩
    by_cases herr : ∃ e, s.invoked = [.errFn e]
    · obtain ⟨e, he⟩ := herr
      obtain ⟨more, hmore⟩ := step_invoked_mono hstep
      have hlen := hs'.invoked_length_le
      rw [← hmore, he, List.length_append, List.length_singleton] at hlen
      rw [List.eq_nil_of_length_eq_zero (by omega : more.length = 0), List.append_nil] at hmore
      exact Or.inl ⟨e, hmore ▸ he⟩
    · have htally := hor.resolve_left herr
      refine Or.inr (htally.step (fun n hop _ => ?_) hstep)
      by_cases hself : (s.node n).selfAcked = true
      · -- some node above is complete, so everything below it is
        right
        have hnot : ¬ s.OpenPath n := by
          subst hop
          exact hg hself
        unfold OpenPath at hnot
        push Not at hnot
        obtain ⟨m, hmn, hm⟩ := hnot
        rw [ne_eq, Bool.not_eq_false] at hm
        have hn : s.Created n := by
          subst hop
          simp only [step, Option.ite_none_right_eq_some] at hstep
          exact hstep.1
        refine (htally.below hm ?_ hmn hn).1
        by_cases hroot : m = []
        · subst hroot
          right
          have hlen := htally.outcome
          rw [if_pos hm] at hlen
          obtain ⟨f, hf⟩ := List.length_eq_one_iff.mp hlen
          cases f with
          | completedFn => simp [hf]
          | errFn e => exact absurd ⟨e, hf⟩ herr
        · exact Or.inl hroot
      · exact Or.inl (by simpa using hself)

/-- **When a repeated ack is harmless.**  A further `Ack` on a node that was acked before
leaves every continuation with the same invocations if and only if the node, or a node above
it, is complete.  And in every run in which a node is acked again only in that case, the tree
completes only after every node that exists was acked. -/
theorem repeated_ack_harmless_iff :
    (∀ (ops : List (Op ε)) (t : AckTree ε) (n : NodeId),
      Runs.run step newAckTree ops = some t → Op.ack n ∈ ops →
      ((∀ cont, (Runs.run step (t.ack n) cont).map invoked =
          (Runs.run step t cont).map invoked) ↔
        ∃ m, m <:+ n ∧ (t.node m).completed = true)) ∧
    (∀ (ops : List (Op ε)) (t : AckTree ε),
      Runs.run step newAckTree ops = some t → Runs.Along step AckGuard newAckTree ops →
      .completedFn ∈ t.invoked → ∀ n, t.Created n → Op.ack n ∈ ops) := by
  constructor
  · intro ops t n hrun hmem
    have htrace := trace_of_run hrun
    obtain ⟨hn, hself⟩ := htrace.mem_acked n hmem
    constructor
    · intro hsame
      by_contra hopen
      push Not at hopen
      have ho : t.OpenPath n := fun m hm => by simpa using hopen m hm
      have hacked := hself.resolve_right (by simp [ho n (List.suffix_refl _)])
      -- the node has acked itself before, so this ack is counted like a child's
      have hack : t.ack n = ackNode n false none t := by
        rw [ack_of_open (ho n (List.suffix_refl _))]
        congr 1
        unfold setSelfAcked setNode
        rw [← hacked]
        simp
      obtain ⟨js, hjs, hne⟩ := exists_distinguishing_acks (u := t.ack n) ho
        (fun j hj => htrace.tally.count_lt j (ho j hj)) (by rw [hack]; exact ⟨fun _ _ => rfl, rfl⟩)
      have hcont := hsame (js.map .ack)
      rw [run_acks fun j hj => hn.of_suffix (hjs j hj),
        run_acks (t := t.ack n) fun j hj =>
          (ackNode_created none).mpr (hn.of_suffix (hjs j hj))] at hcont
      simp only [Option.map_some, Option.some.injEq] at hcont
      exact hne hcont.symm
    · rintro ⟨m, hmn, hm⟩ cont
      exact (shadowed_ack htrace.tally hn hself hmn hm).same_future cont
  · intro ops t hrun hguard hdone n hn
    rcases sound_of_guarded hrun hguard with ⟨e, he⟩ | htally
    · simp [he] at hdone
    · have hroot : (t.node []).completed = true := by
        by_contra hopen
        rw [Bool.not_eq_true] at hopen
        simp [htally.invoked_eq_nil hopen] at hdone
      exact (trace_of_run hrun).acked_mem n
        (htally.below hroot (Or.inr hdone) List.nil_suffix hn).2

/-- A root with one child, acked twice: the second ack is taken for the child's, and the tree
completes although the child was neither acked nor nacked. -/
theorem repeated_ack_completes_early :
    ∃ t : AckTree Unit, Runs.run step newAckTree [.newSubTree [], .ack []] = some t ∧
      t.invoked = [] ∧ (t.ack []).invoked = [.completedFn] ∧ (t.ack []).Created [0] := by
  refine ⟨_, rfl, ?_⟩
  decide

/-- The child is complete when it is acked again. -/
theorem repeated_ack_harmless_child :
    let ops : List (Op Unit) := [.newSubTree [], .ack [0], .ack [0], .ack []]
    (∃ t, Runs.run step newAckTree (ops.take 2) = some t ∧
      ∀ cont, (Runs.run step (t.ack [0]) cont).map invoked =
        (Runs.run step t cont).map invoked) ∧
    ∃ t, Runs.run step newAckTree ops = some t ∧ .completedFn ∈ t.invoked ∧
      ∀ n, t.Created n → Op.ack n ∈ ops := by
  intro ops
  constructor
  · exact ⟨_, rfl, (repeated_ack_harmless_iff.1 (ops.take 2) _ [0] rfl (by decide)).mpr
      ⟨[0], List.suffix_refl _, by decide⟩⟩
  · exact ⟨_, rfl, by decide, repeated_ack_harmless_iff.2 ops _ rfl (by decide) (by decide)⟩

end AckTree
