/-
# What split and js do to acknowledgements

A filter that gets an event takes over its node of the ack tree: it acks or nacks it, or it
hands it on.  The same holds for every node it makes by cloning the event.  When all filters
do so, a receiver hears of every event that was delivered (`Conserves.handled`).

`split` does, on every path.  `js` does not when its script returns an array that begins
with an object: the clones are handed on but the event they come from is forgotten, and when
a later element is not an object the clones are forgotten instead.
-/
import Ears.FanOut

open GoLib

variable {κ ε ρ : Type}

namespace Acks

variable {a a' : Acks ε} {n m : NodeId}

/-- The tree is what the calls made on it have led to. -/
def Sound (a : Acks ε) : Prop := Runs.run AckTree.step .newAckTree a.history = some a.tree

/-- The node exists and has not acked itself. -/
structure Open (a : Acks ε) (n : NodeId) : Prop where
  sound : a.Sound
  created : a.tree.Created n
  unsettled : a.tree.isAcked n = false

theorem Sound.step {t : AckTree ε} {op : AckTree.Op ε} (h : a.Sound)
    (hs : a.tree.step op = some t) : Sound ⟨t, a.history ++ [op]⟩ := by
  refine Runs.run_append_eq_some.mpr ⟨a.tree, h, ?_⟩
  rw [Runs.run_singleton, hs]

theorem Sound.ack (h : a.Sound) (hc : a.tree.Created n) : (a.ack n).Sound :=
  h.step (by simp [AckTree.step, hc])

/-- The child that `NewSubTree` gives an open node. -/
def child (a : Acks ε) (n : NodeId) : NodeId := ((a.tree.node n).numAckExpected - 1) :: n

theorem Open.newSubTree_eq (h : a.Open n) :
    (a.tree.newSubTree n).2 = .ok (a.child n) := by
  have hself : (a.tree.node n).selfAcked = false := h.unsettled
  simp [AckTree.newSubTree, hself, child]

theorem Open.newSubTree (h : a.Open n) : (a.newSubTree n).Open n where
  sound := h.sound.step (by simp [AckTree.step, h.created])
  created := h.created.newSubTree n
  unsettled := by
    have hself : (a.tree.node n).selfAcked = false := h.unsettled
    show ((a.tree.newSubTree n).1.node n).selfAcked = false
    rw [AckTree.newSubTree_node h.created, if_pos ⟨rfl, hself⟩]
    exact hself

theorem Open.child_created (h : a.Open n) : (a.newSubTree n).tree.Created (a.child n) :=
  h.created.newChild ((AckTree.Tally.of_run h.sound).expected_pos n) h.unsettled

theorem child_not_created : ¬ a.tree.Created (a.child n) := fun h => h.ne_newChild rfl

theorem Open.child_unsettled (h : a.Open n) :
    (a.newSubTree n).tree.isAcked (a.child n) = false := by
  have hself : (a.tree.node n).selfAcked = false := h.unsettled
  simp [Acks.newSubTree, AckTree.newSubTree, AckTree.isAcked, hself, child]

theorem Open.created_newSubTree (h : a.Open n) (hm : (a.newSubTree n).tree.Created m) :
    a.tree.Created m ∨ m = a.child n := by
  have hpos := (AckTree.Tally.of_run h.sound).expected_pos n
  exact (AckTree.newSubTree_created hpos hm).imp id And.left

/-! ## Conservation -/

/-- A call since `a` has acked or nacked the node. -/
def Settled (a a' : Acks ε) (m : NodeId) : Prop :=
  ∃ calls, a'.history = a.history ++ calls ∧ (.ack m ∈ calls ∨ ∃ err, .nack m err ∈ calls)

/-- One of the events is on the node. -/
def Holds (evts : List (Event κ)) (m : NodeId) : Prop := ∃ e ∈ evts, e.subTree = some m

/-- What a filter owes for the event `evt` when it returns `evts`: the event's node is
handed on unsettled or has been settled, and so has every node made during the call. -/
structure Conserves (a : Acks ε) (evt : Event κ) (evts : List (Event κ)) (a' : Acks ε) : Prop where
  input : ∀ n, evt.subTree = some n →
    Holds evts n ∧ a'.tree.isAcked n = false ∨ Settled a a' n
  clones : ∀ c, a'.tree.Created c → ¬ a.tree.Created c → Holds evts c ∨ Settled a a' c

/-- When, in a tree without nacks, every returned event is later acked once and nothing
else is pending, the receiver's handled function runs. -/
def Handled (a : Acks ε) (evt : Event κ) (evts : List (Event κ)) (a' : Acks ε) : Prop :=
  ∀ (later : List (AckTree.Op ε)) (t : AckTree ε),
    Runs.run AckTree.step a'.tree later = some t →
    (∀ op ∈ a'.history ++ later, (∃ n, op = .ack n) ∨ ∃ n, op = .newSubTree n) →
    (AckTree.ackedNodes (a'.history ++ later)).Nodup →
    (∀ m, Holds evts m → .ack m ∈ later) →
    (∀ m, t.Created m → evt.subTree ≠ some m → ¬ (a'.tree.Created m ∧ ¬ a.tree.Created m) →
      .ack m ∈ a'.history ++ later) →
    .completedFn ∈ t.invoked

/-- A node that a call has settled was acked, in a history without nacks. -/
theorem Settled.acked {calls : List (AckTree.Op ε)} (h : Settled a a' m)
    (hops : ∀ op ∈ a'.history ++ calls, (∃ n, op = .ack n) ∨ ∃ n, op = .newSubTree n) :
    .ack m ∈ a'.history := by
  obtain ⟨cs, hcs, hack | ⟨err, hnack⟩⟩ := h
  · rw [hcs]
    exact List.mem_append_right _ hack
  · have hmem : AckTree.Op.nack m err ∈ a'.history ++ calls := by
      rw [hcs]
      exact List.mem_append_left _ (List.mem_append_right _ hnack)
    rcases hops _ hmem with ⟨k, hk⟩ | ⟨k, hk⟩
    · simp at hk
    · simp at hk

/-- A filter that conserves acknowledgements lets the receiver hear of the event. -/
theorem Conserves.handled {evt : Event κ} {evts : List (Event κ)}
    (h : Conserves a evt evts a') (hsound : a'.Sound) : Handled a evt evts a' := by
  intro later t hrun hops honce hreturned hrest
  have hwhole : Runs.run AckTree.step .newAckTree (a'.history ++ later) = some t :=
    Runs.run_append_eq_some.mpr ⟨a'.tree, hsound, hrun⟩
  have hkept : ∀ m, Holds evts m ∨ Settled a a' m → AckTree.Op.ack m ∈ a'.history ++ later := by
    rintro m (hm | hm)
    · exact List.mem_append_right _ (hreturned m hm)
    · exact List.mem_append_left _ (hm.acked hops)
  have hall : ∀ m, t.Created m → AckTree.Op.ack m ∈ a'.history ++ later := by
    intro m hm
    by_cases hin : evt.subTree = some m
    · exact hkept m ((h.input m hin).imp And.left id)
    · by_cases hclone : a'.tree.Created m ∧ ¬ a.tree.Created m
      · exact hkept m (h.clones m hclone.1 hclone.2)
      · exact hrest m hm hin hclone
  have hdone := (AckTree.trace_of_run hwhole).completed_of_all_acked honce hall
  rw [AckTree.invoked_of_completed hwhole hops hdone]
  exact List.mem_singleton_self _

/-! ## Cloning several times -/

/-- `evts` are clones made one after the other from the event on `n`, and nothing else
happened to the tree. -/
structure Cloned (n : NodeId) (a : Acks ε) (evts : List (Event κ)) (a' : Acks ε) : Prop where
  isOpen : a'.Open n
  calls : a'.history = a.history ++ List.replicate evts.length (.newSubTree n)
  nodes : ∀ e ∈ evts, ∃ c, e.subTree = some c ∧ a'.tree.Created c ∧ ¬ a.tree.Created c
  made : ∀ c, a'.tree.Created c → a.tree.Created c ∨ Holds evts c
  kept : ∀ c, a.tree.Created c → a'.tree.Created c

theorem Cloned.nil (h : a.Open n) : Cloned n a ([] : List (Event κ)) a where
  isOpen := h
  calls := by simp
  nodes := by simp
  made := fun c hc => Or.inl hc
  kept := fun c hc => hc

theorem Cloned.cons {e : Event κ} {evts : List (Event κ)} (h : a.Open n)
    (he : e.subTree = some (a.child n)) (hrest : Cloned n (a.newSubTree n) evts a') :
    Cloned n a (e :: evts) a' where
  isOpen := hrest.isOpen
  calls := by
    rw [hrest.calls, List.length_cons, List.replicate_succ]
    simp [Acks.newSubTree]
  nodes := by
    intro f hf
    rcases List.mem_cons.mp hf with rfl | hf
    · exact ⟨_, he, hrest.kept _ h.child_created, child_not_created⟩
    · obtain ⟨c, hc, hmade, hnew⟩ := hrest.nodes f hf
      exact ⟨c, hc, hmade, fun hold => hnew (hold.newSubTree n)⟩
  made := by
    intro c hc
    rcases hrest.made c hc with hc | ⟨f, hf, hfc⟩
    · rcases h.created_newSubTree hc with hc | rfl
      · exact Or.inl hc
      · exact Or.inr ⟨e, List.mem_cons_self, he⟩
    · exact Or.inr ⟨f, List.mem_cons_of_mem _ hf, hfc⟩
  kept := fun c hc => hrest.kept c (hc.newSubTree n)

/-- Without a clone nothing has happened. -/
theorem Cloned.eq_of_nil (ha : a.Open n) (h : Cloned n a ([] : List (Event κ)) a') : a' = a := by
  have hcalls : a'.history = a.history := by simpa using h.calls
  have htree := h.isOpen.sound
  rw [Sound, hcalls, ha.sound, Option.some.injEq] at htree
  cases a
  cases a'
  simp_all

/-- To hand on the clones and ack the event conserves. -/
theorem Cloned.conserves_ack {evt : Event κ} {evts : List (Event κ)} (h : Cloned n a evts a')
    (hn : evt.subTree = some n) : Conserves a evt evts (a'.ack n) where
  input := by
    intro k hk
    obtain rfl : n = k := Option.some.inj (hn.symm.trans hk)
    refine Or.inr ⟨List.replicate evts.length (.newSubTree n) ++ [.ack n], ?_, Or.inl ?_⟩
    · rw [Acks.ack, h.calls, List.append_assoc]
    · simp
  clones := by
    intro c hc hnew
    have hc' : a'.tree.Created c := (AckTree.ackNode_created none).mp hc
    rcases h.made c hc' with hold | hheld
    · exact absurd hold hnew
    · exact Or.inl hheld

end Acks

/-! ## One clone -/

section Clone

open Event.Calls

variable (order : Finset String → List String) {h : Heap} {a : Acks ε} {n : NodeId}

/-- An event whose node has not acked takes a new payload. -/
theorem Event.setPayload_of_unsettled {t : AckTree ε} {e : Event κ} (hn : e.subTree = some n)
    (hopen : t.isAcked n = false) (payload : Value) :
    e.setPayload t payload = ({ e with payload := payload }, .ok ()) := by
  simp [Event.setPayload, Event.isSettled, hn, hopen]

theorem Event.setMetadata_of_unsettled {t : AckTree ε} {e : Event κ} (hn : e.subTree = some n)
    (hopen : t.isAcked n = false) (metadata : Option Ref) :
    e.setMetadata t metadata = ({ e with metadata := metadata }, .ok ()) := by
  simp [Event.setMetadata, Event.isSettled, hn, hopen]

/-- The clone of an event, on the new child of its node. -/
def Event.onChild (e : Event κ) (a : Acks ε) (n : NodeId) : Event κ :=
  { e with subTree := some (a.child n), deepcopied := false }

theorem Acks.Open.run_clone {e : Event κ} (ha : a.Open n) (hn : e.subTree = some n) :
    (clone e e.ctx).run (EventProg.handle order) (h, a) =
      (some (.ok (e.onChild a n)), h, a.newSubTree n) := by
  rw [Event.Calls.run_clone order h a e hn]
  have hres := ha.newSubTree_eq
  unfold Event.clone
  rw [hn]
  dsimp only
  generalize a.tree.newSubTree n = res at hres ⊢
  obtain ⟨t, r⟩ := res
  obtain rfl : r = .ok (a.child n) := hres
  rfl

end Clone

/-! ## Split -/

namespace Split

open Event.Calls Acks

variable (order : Finset String → List String) (lib : Libs κ) {evt : Event κ} {n : NodeId}

/-- The loop of split clones the event and acks it at the end. -/
theorem splitElements_spec (hn : evt.subTree = some n) (arr : Ref) (is : List ℕ) :
    ∀ events h (a : Acks ε) evts h' a', a.Open n →
      (splitElements lib evt arr is events).run (EventProg.handle order) (h, a) =
        (some evts, h', a') →
      ∃ new a₁, evts = events ++ new ∧ Cloned n a new a₁ ∧ a' = a₁.ack n := by
  induction is with
  | nil =>
      intro events h a evts h' a' ha hrun
      unfold splitElements at hrun
      rw [Prog.run_bind_of_some _ _ (Event.Calls.run_ack order h a evt hn)] at hrun
      simp only [Prog.run_pure, Prod.mk.injEq, Option.some.injEq] at hrun
      obtain ⟨rfl, rfl, rfl⟩ := hrun
      exact ⟨[], a, by simp, Cloned.nil ha, rfl⟩
  | cons i is ih =>
      intro events h a evts h' a' ha hrun
      unfold splitElements at hrun
      rw [Prog.run_bind_of_some _ _
        (Prog.run_left_of_some _ _ _ _ (HeapProg.run_index order h arr i)),
        Prog.run_bind_of_some _ _ (ha.run_clone order hn)] at hrun
      have hchild := ha.child_unsettled
      dsimp only at hrun
      rw [Prog.run_bind_of_some _ _ (Event.Calls.run_setPayload order h _ _ _),
        Event.setPayload_of_unsettled rfl hchild] at hrun
      dsimp only at hrun
      obtain ⟨metadata, ⟨h₁, a₁⟩, hcopy, hrun⟩ := (Prog.run_bind_eq_some _ _).mp hrun
      obtain rfl : a₁ = _ := ((Prog.run_left_eq_some _ _ _ _).mp hcopy).2
      rw [Prog.run_bind_of_some _ _ (Event.Calls.run_setMetadata order h₁ _ _ _),
        Event.setMetadata_of_unsettled rfl hchild] at hrun
      obtain ⟨new, a₁, rfl, hcloned, rfl⟩ := ih _ _ _ _ _ _ ha.newSubTree hrun
      refine ⟨_, a₁, List.append_assoc .., ?_, rfl⟩
      exact Cloned.cons ha rfl hcloned

/-- Split conserves acknowledgements. -/
theorem filter_conserves (path : String) {h h' : Heap} {a a' : Acks ε} {evts : List (Event κ)}
    (hn : evt.subTree = some n) (ha : a.Open n)
    (hrun : (filter lib path evt).run (EventProg.handle order) (h, a) = (some evts, h', a')) :
    Conserves a evt evts a' ∧ a'.Sound := by
  unfold filter at hrun
  obtain ⟨⟨obj, parent, key⟩, ⟨h₁, a₁⟩, hget, hrun⟩ := (Prog.run_bind_eq_some _ _).mp hrun
  obtain rfl : a₁ = a := ((Prog.run_left_eq_some _ _ _ _).mp hget).2
  -- both ways out without an array ack the event
  have hack : (do
      ack evt
      pure ([] : List (Event κ))).run (EventProg.handle order) (h₁, a₁) = (some evts, h', a') →
      Conserves a₁ evt evts a' ∧ a'.Sound := by
    intro hrun
    rw [Prog.run_bind_of_some _ _ (Event.Calls.run_ack order h₁ a₁ evt hn)] at hrun
    simp only [Prog.run_pure, Prod.mk.injEq, Option.some.injEq] at hrun
    obtain ⟨rfl, -, rfl⟩ := hrun
    exact ⟨(Cloned.nil ha).conserves_ack hn, ha.sound.ack ha.created⟩
  cases obj with
  | slice arr =>
      dsimp only at hrun
      rw [Prog.run_bind_of_some _ _
        (Prog.run_left_of_some _ _ _ _ (HeapProg.run_len order h₁ arr))] at hrun
      obtain ⟨new, a₂, rfl, hcloned, rfl⟩ :=
        splitElements_spec order lib hn arr _ _ _ _ _ _ _ ha hrun
      exact ⟨hcloned.conserves_ack hn, hcloned.isOpen.sound.ack hcloned.isOpen.created⟩
  | _ => exact hack hrun

end Split

/-! ## Js -/

namespace Js

open Event.Calls Acks

variable (order : Finset String → List String) (lib : Libs κ) {evt : Event κ} {n : NodeId}

/-- The entry `metadata` of an object is a map. -/
def hasMetadata (h : Heap) : Value → Bool
  | .map m => (asMap (h.getKey m "metadata")).isSome
  | _ => false

/-- What a script returned is an array that begins with an object, and none of the objects
up to the first element that is not one makes the loop of `Exec` panic. -/
def FansOut (h : Heap) : Except String Exported → Prop
  | .ok (.value (.slice arr)) =>
      (h.slices arr).takeWhile isObject ≠ [] ∧
        ∀ v ∈ (h.slices arr).takeWhile isObject, hasMetadata h v = true
  | _ => False

instance (h : Heap) : (out : Except String Exported) → Decidable (FansOut h out)
  | .ok (.value (.slice arr)) => inferInstanceAs (Decidable
      ((h.slices arr).takeWhile isObject ≠ [] ∧
        ∀ v ∈ (h.slices arr).takeWhile isObject, hasMetadata h v = true))
  | .error _ => isFalse id
  | .ok .gojaValue => isFalse id
  | .ok .interruptedError => isFalse id
  | .ok .other => isFalse id
  | .ok (.value .nil) => isFalse id
  | .ok (.value .nilMap) => isFalse id
  | .ok (.value (.bool _)) => isFalse id
  | .ok (.value (.num _)) => isFalse id
  | .ok (.value (.str _)) => isFalse id
  | .ok (.value (.bytes _)) => isFalse id
  | .ok (.value (.map _)) => isFalse id

section SetData

variable {e : Event κ} {c : NodeId} {h : Heap} {a : Acks ε} {v : Value}

theorem run_setData_map (hc : e.subTree = some c) (hopen : a.tree.isAcked c = false) (m : Ref) :
    (setData e (.map m)).run (EventProg.handle order) (h, a) =
      match asMap (h.getKey m "metadata") with
      | none => (none, h, a)
      | some metadata => (some ({ e with
          payload := (h.getKey m "payload").getD .nil
          metadata := metadata }, .ok ()), h, a) := by
  unfold setData
  dsimp only
  rw [Prog.run_bind_of_some _ _
    (Prog.run_left_of_some _ _ _ _ (HeapProg.run_getKey order h m "payload")),
    Prog.run_bind_of_some _ _ (Event.Calls.run_setPayload order h a e _),
    Event.setPayload_of_unsettled hc hopen]
  dsimp only
  rw [Prog.run_bind_of_some _ _
    (Prog.run_left_of_some _ _ _ _ (HeapProg.run_getKey order h m "metadata"))]
  cases asMap (h.getKey m "metadata") with
  | none => rfl
  | some metadata =>
      have hset := Event.setMetadata_of_unsettled
        (e := { e with payload := (h.getKey m "payload").getD .nil }) hc hopen metadata
      dsimp only
      rw [Event.Calls.run_setMetadata, hset]

/-- An event takes over the data of an object with metadata. -/
theorem run_setData (hc : e.subTree = some c) (hopen : a.tree.isAcked c = false)
    (hmeta : hasMetadata h v = true) :
    ∃ e', e'.subTree = some c ∧
      (setData e v).run (EventProg.handle order) (h, a) = (some (e', .ok ()), h, a) := by
  cases v with
  | map m =>
      rw [run_setData_map order hc hopen]
      unfold hasMetadata at hmeta
      obtain ⟨metadata, hm⟩ := Option.isSome_iff_exists.mp hmeta
      rw [hm]
      refine ⟨_, ?_, rfl⟩
      exact hc
  | _ => simp [hasMetadata] at hmeta

/-- An object without metadata makes the assertion fail. -/
theorem run_setData_panics (hc : e.subTree = some c) (hopen : a.tree.isAcked c = false)
    (hobj : isObject v = true) (hmeta : hasMetadata h v = false) :
    (setData e v).run (EventProg.handle order) (h, a) = (none, h, a) := by
  cases v with
  | map m =>
      rw [run_setData_map order hc hopen]
      unfold hasMetadata at hmeta
      rw [Option.isSome_eq_false_iff, Option.isNone_iff_eq_none] at hmeta
      rw [hmeta]
  | nilMap =>
      unfold setData
      dsimp only
      rw [Prog.run_bind_of_some _ _ (Prog.run_left_of_some _ _ _ _ (Prog.run_pure _ h _)),
        Prog.run_bind_of_some _ _ (Event.Calls.run_setPayload order h a e _),
        Event.setPayload_of_unsettled hc hopen]
      rfl
  | _ => simp [isObject] at hobj

end SetData

section Elements

variable {h : Heap} {a : Acks ε} {arr : Ref} {i : ℕ} {is : List ℕ} {events : List (Event κ)}

/-- An element that is not an object ends the loop of `Exec`. -/
theorem run_execElements_other (hobj : isObject ((h.slices arr).getD i .nil) = false) :
    (execElements evt arr (i :: is) events).run (EventProg.handle order) (h, a) =
      (some (.error (.other "array element is not map")), h, a) := by
  unfold execElements
  rw [Prog.run_bind_of_some _ _
    (Prog.run_left_of_some _ _ _ _ (HeapProg.run_index order h arr i)),
    if_neg (Bool.not_eq_true _ ▸ hobj)]
  rfl

/-- An object with metadata becomes a clone. -/
theorem run_execElements_object (is : List ℕ) (events : List (Event κ))
    (hn : evt.subTree = some n) (ha : a.Open n)
    (hobj : isObject ((h.slices arr).getD i .nil) = true)
    (hmeta : hasMetadata h ((h.slices arr).getD i .nil) = true) :
    ∃ e, e.subTree = some (a.child n) ∧
      (execElements evt arr (i :: is) events).run (EventProg.handle order) (h, a) =
        (execElements evt arr is (events ++ [e])).run (EventProg.handle order)
          (h, a.newSubTree n) := by
  obtain ⟨e, he, hset⟩ := run_setData order (e := evt.onChild a n) rfl ha.child_unsettled hmeta
  refine ⟨e, he, ?_⟩
  conv_lhs => unfold execElements
  rw [Prog.run_bind_of_some _ _
    (Prog.run_left_of_some _ _ _ _ (HeapProg.run_index order h arr i)), if_pos hobj,
    Prog.run_bind_of_some _ _ (ha.run_clone order hn)]
  dsimp only
  rw [Prog.run_bind_of_some _ _ hset]

/-- An object without metadata makes the loop panic. -/
theorem run_execElements_panics (hn : evt.subTree = some n) (ha : a.Open n)
    (hobj : isObject ((h.slices arr).getD i .nil) = true)
    (hmeta : hasMetadata h ((h.slices arr).getD i .nil) = false) :
    ((execElements evt arr (i :: is) events).run (EventProg.handle order) (h, a)).1 = none := by
  have hset := run_setData_panics order (e := evt.onChild a n) rfl ha.child_unsettled hobj hmeta
  unfold execElements
  rw [Prog.run_bind_of_some _ _
    (Prog.run_left_of_some _ _ _ _ (HeapProg.run_index order h arr i)), if_pos hobj,
    Prog.run_bind_of_some _ _ (ha.run_clone order hn)]
  dsimp only
  rw [Prog.run_bind_of_none _ _ hset]

end Elements

/-- The values at some indices of a slice. -/
def valuesAt (h : Heap) (arr : Ref) (is : List ℕ) : List Value :=
  is.map fun i => (h.slices arr).getD i .nil

/-- When no object panics, the loop of `Exec` makes one clone for each object up to the
first element that is not one. -/
theorem execElements_clones (hn : evt.subTree = some n) (arr : Ref) (h : Heap) (is : List ℕ) :
    ∀ events (a : Acks ε), a.Open n →
      (∀ v ∈ (valuesAt h arr is).takeWhile isObject, hasMetadata h v = true) →
      ∃ new a₁ res, Cloned n a new a₁ ∧
        new.length = ((valuesAt h arr is).takeWhile isObject).length ∧
        (execElements evt arr is events).run (EventProg.handle order) (h, a) =
          (some res, h, a₁) ∧
        ((∃ err, res = .error err) ∨ res = .ok (events ++ new)) := by
  induction is with
  | nil =>
      intro events a ha _
      exact ⟨[], a, .ok events, Cloned.nil ha, rfl, rfl, Or.inr (by rw [List.append_nil])⟩
  | cons i is ih =>
      intro events a ha hall
      rw [valuesAt, List.map_cons] at hall ⊢
      rcases Bool.eq_false_or_eq_true (isObject ((h.slices arr).getD i .nil)) with hobj | hobj
      · rw [List.takeWhile_cons_of_pos hobj] at hall ⊢
        obtain ⟨e, he, hrun⟩ := run_execElements_object order is events hn ha
          hobj (hall _ List.mem_cons_self)
        obtain ⟨new, a₁, res, hcloned, hlen, hrest, hres⟩ := ih (events ++ [e]) _ ha.newSubTree
          fun v hv => hall v (List.mem_cons_of_mem _ hv)
        refine ⟨e :: new, a₁, res, Cloned.cons ha he hcloned, ?_, hrun.trans hrest, ?_⟩
        · rw [List.length_cons, List.length_cons, hlen]
          rfl
        · rwa [List.append_assoc, List.singleton_append] at hres
      · rw [List.takeWhile_cons_of_neg (Bool.not_eq_true _ ▸ hobj)]
        exact ⟨[], a, _, Cloned.nil ha, rfl, run_execElements_other order hobj, Or.inl ⟨_, rfl⟩⟩

/-- When an object has no metadata, the loop of `Exec` panics. -/
theorem execElements_panics (hn : evt.subTree = some n) (arr : Ref) (h : Heap) (is : List ℕ) :
    ∀ events (a : Acks ε), a.Open n →
      ¬ (∀ v ∈ (valuesAt h arr is).takeWhile isObject, hasMetadata h v = true) →
      ((execElements evt arr is events).run (EventProg.handle order) (h, a)).1 = none := by
  induction is with
  | nil =>
      intro events a _ hnot
      exact absurd (by simp [valuesAt]) hnot
  | cons i is ih =>
      intro events a ha hnot
      rw [valuesAt, List.map_cons] at hnot
      rcases Bool.eq_false_or_eq_true (isObject ((h.slices arr).getD i .nil)) with hobj | hobj
      · rw [List.takeWhile_cons_of_pos hobj] at hnot
        rcases Bool.eq_false_or_eq_true (hasMetadata h ((h.slices arr).getD i .nil)) with
          hmeta | hmeta
        · obtain ⟨e, he, hrun⟩ := run_execElements_object order is events
            hn ha hobj hmeta
          rw [hrun]
          refine ih (events ++ [e]) _ ha.newSubTree fun hall => hnot fun v hv => ?_
          rcases List.mem_cons.mp hv with rfl | hv
          · exact hmeta
          · exact hall v hv
        · exact run_execElements_panics order hn ha hobj hmeta
      · rw [List.takeWhile_cons_of_neg (Bool.not_eq_true _ ▸ hobj)] at hnot
        exact absurd (by simp) hnot

/-- The values at all indices of a slice are its elements. -/
theorem valuesAt_range (h : Heap) (arr : Ref) :
    valuesAt h arr (List.range (h.slices arr).length) = h.slices arr := by
  unfold valuesAt
  apply List.ext_getElem
  · simp
  · intro i _ hi
    simp [List.getElem?_eq_getElem hi]

section Result

variable {h : Heap} {a : Acks ε} {out : Except String Exported}

/-- What `Exec` returns for a script that did not fan out: an error, nothing or the event
itself, on its node. -/
def Single (n : NodeId) (evt : Event κ) (res : Except EventError (List (Event κ))) : Prop :=
  evt.subTree = some n ∧ ((∃ err, res = .error err) ∨ res = .ok [] ∨ res = .ok [evt])

theorem execObject_spec (hn : evt.subTree = some n) (ha : a.Open n) {v : Value}
    (hobj : isObject v = true) {evt' : Event κ} {res : Except EventError (List (Event κ))}
    {h' : Heap} {a' : Acks ε}
    (hrun : (execObject evt v).run (EventProg.handle order) (h, a) =
      (some (evt', res), h', a')) : a' = a ∧ Single n evt' res := by
  unfold execObject at hrun
  rcases Bool.eq_false_or_eq_true (hasMetadata h v) with hmeta | hmeta
  · obtain ⟨e, he, hset⟩ := run_setData order hn ha.unsettled hmeta
    rw [Prog.run_bind_of_some _ _ hset] at hrun
    simp only [Prog.run_pure, Prod.mk.injEq, Option.some.injEq] at hrun
    obtain ⟨⟨rfl, rfl⟩, -, rfl⟩ := hrun
    exact ⟨rfl, he, Or.inr (Or.inr rfl)⟩
  · rw [Prog.run_bind_of_none _ _ (run_setData_panics order hn ha.unsettled hobj hmeta)] at hrun
    simp at hrun

/-- An array makes clones of the event, or `Exec` panics. -/
theorem run_execResult_slice (arr : Ref) :
    (execResult evt (.ok (.value (.slice arr)))).run (EventProg.handle order) (h, a) =
      match (execElements evt arr (List.range (h.slices arr).length) []).run
        (EventProg.handle order) (h, a) with
      | (some res, s) => (some (evt, res), s)
      | (none, s) => (none, s) := by
  unfold execResult
  rw [Prog.run_bind_of_some _ _
    (Prog.run_left_of_some _ _ _ _ (HeapProg.run_len order h arr)), Prog.run_bind]
  rcases (execElements evt arr (List.range (h.slices arr).length) []).run
    (EventProg.handle order) (h, a) with ⟨_ | res, s⟩
  · rfl
  · rfl

/-- Without fan-out `Exec` leaves the tree alone. -/
theorem execResult_single (hn : evt.subTree = some n) (ha : a.Open n) (hout : ¬ FansOut h out)
    {evt' : Event κ} {res : Except EventError (List (Event κ))} {h' : Heap} {a' : Acks ε}
    (hrun : (execResult evt out).run (EventProg.handle order) (h, a) =
      (some (evt', res), h', a')) : a' = a ∧ Single n evt' res := by
  have hplain : ∀ r : Except EventError (List (Event κ)), (∃ err, r = .error err) ∨ r = .ok [] →
      (pure (evt, r) : EventProg ε _).run (EventProg.handle order) (h, a) =
        (some (evt', res), h', a') → a' = a ∧ Single n evt' res := by
    intro r hr hrun
    simp only [Prog.run_pure, Prod.mk.injEq, Option.some.injEq] at hrun
    obtain ⟨⟨rfl, rfl⟩, -, rfl⟩ := hrun
    exact ⟨rfl, hn, hr.imp id Or.inl⟩
  rcases out with err | v
  · exact hplain _ (Or.inl ⟨_, rfl⟩) hrun
  · cases v with
    | gojaValue => exact hplain _ (Or.inr rfl) hrun
    | interruptedError => exact hplain _ (Or.inr rfl) hrun
    | other => exact hplain _ (Or.inl ⟨_, rfl⟩) hrun
    | value v =>
        cases v with
        | nil => exact hplain _ (Or.inr rfl) hrun
        | map m => exact execObject_spec order hn ha (v := .map m) rfl hrun
        | nilMap => exact execObject_spec order hn ha (v := .nilMap) rfl hrun
        | slice arr =>
            rw [run_execResult_slice] at hrun
            by_cases hall : ∀ v ∈ (h.slices arr).takeWhile isObject, hasMetadata h v = true
            · -- no object comes first, so no clone is made
              have hnone : (h.slices arr).takeWhile isObject = [] := by
                by_contra hne
                exact hout ⟨hne, hall⟩
              rw [← valuesAt_range h arr] at hall hnone
              obtain ⟨new, a₁, r, hcloned, hlen, hel, hres⟩ :=
                execElements_clones order hn arr h _ [] a ha hall
              rw [hnone, List.length_nil] at hlen
              obtain rfl := List.eq_nil_of_length_eq_zero hlen
              obtain rfl := hcloned.eq_of_nil ha
              simp only [hel, Prod.mk.injEq, Option.some.injEq] at hrun
              obtain ⟨⟨rfl, rfl⟩, -, rfl⟩ := hrun
              exact ⟨rfl, hn, hres.imp id Or.inl⟩
            · rw [← valuesAt_range h arr] at hall
              have hpanic := execElements_panics order hn arr h _ [] a ha hall
              generalize (execElements evt arr (List.range (h.slices arr).length) []).run
                (EventProg.handle order) (h, a) = x at hrun hpanic
              obtain ⟨x, s⟩ := x
              obtain rfl : x = none := hpanic
              simp at hrun
        | bool b => exact hplain _ (Or.inl ⟨_, rfl⟩) hrun
        | num text => exact hplain _ (Or.inl ⟨_, rfl⟩) hrun
        | str s => exact hplain _ (Or.inl ⟨_, rfl⟩) hrun
        | bytes b => exact hplain _ (Or.inl ⟨_, rfl⟩) hrun

/-- With fan-out `Exec` makes at least one clone, and returns an error or all clones. -/
theorem execResult_fansOut (hn : evt.subTree = some n) (ha : a.Open n) (hout : FansOut h out) :
    ∃ new a₁ res, Cloned n a new a₁ ∧ new ≠ [] ∧
      (execResult evt out).run (EventProg.handle order) (h, a) = (some (evt, res), h, a₁) ∧
      ((∃ err, res = .error err) ∨ res = .ok new) := by
  rcases out with err | (_ | _ | v | _)
  · exact hout.elim
  · exact hout.elim
  · exact hout.elim
  · cases v with
    | slice arr =>
        obtain ⟨hne, hall⟩ := hout
        rw [← valuesAt_range h arr] at hne hall
        obtain ⟨new, a₁, res, hcloned, hlen, hel, hres⟩ :=
          execElements_clones order hn arr h _ [] a ha hall
        refine ⟨new, a₁, res, hcloned, ?_, ?_, by simpa using hres⟩
        · rintro rfl
          exact hne (List.eq_nil_of_length_eq_zero hlen.symm)
        · rw [run_execResult_slice, hel]
    | _ => exact hout.elim
  · exact hout.elim

end Result

/-! ## The js filter -/

section Filter

variable {h : Heap} {a : Acks ε} {code : Except String (Script ρ)}

/-- The script of the filter, run on the event by itself, returned `out`. -/
def Returned (order : Finset String → List String) (lib : Libs κ) (code : Except String (Script ρ))
    (evt : Event κ) (h : Heap) (out : Except String Exported) (h₁ : Heap) : Prop :=
  ∃ script rt, code = .ok script ∧
    (runScript lib script evt).run (Heap.handle order) h = (some (rt, out), h₁)

/-- The filter acks the event when `Exec` gives it nothing to hand on. -/
theorem run_filter {evt' : Event κ} {res : Except EventError (List (Event κ))} {h₁ : Heap}
    {a₁ : Acks ε} (hn : evt'.subTree = some n)
    (hexec : (exec lib code evt).run (EventProg.handle order) (h, a) =
      (some (evt', res), h₁, a₁)) :
    (filter lib code evt).run (EventProg.handle order) (h, a) =
      match res with
      | .error _ => (some [], h₁, a₁.ack n)
      | .ok [] => (some [], h₁, a₁.ack n)
      | .ok (e :: es) => (some (e :: es), h₁, a₁) := by
  unfold filter
  rw [Prog.run_bind_of_some _ _ hexec]
  rcases res with err | (_ | ⟨e, es⟩)
  · exact Prog.run_bind_of_some _ _ (Event.Calls.run_ack order h₁ a₁ evt' hn) _
  · exact Prog.run_bind_of_some _ _ (Event.Calls.run_ack order h₁ a₁ evt' hn) _
  · rfl

/-- A script that does not fan out: js conserves acknowledgements. -/
theorem filter_conserves (hn : evt.subTree = some n) (ha : a.Open n)
    (hout : ∀ out h₁, Returned order lib code evt h out h₁ → ¬ FansOut h₁ out)
    {evts : List (Event κ)} {h' : Heap} {a' : Acks ε}
    (hrun : (filter lib code evt).run (EventProg.handle order) (h, a) = (some evts, h', a')) :
    Conserves a evt evts a' ∧ a'.Sound := by
  obtain ⟨⟨evt', res⟩, ⟨h₁, a₁⟩, hexec, -⟩ := (Prog.run_bind_eq_some _ _).mp hrun
  have hsingle : a₁ = a ∧ Single n evt' res := by
    rcases code with err | script
    · simp only [exec, Prog.run_pure, Prod.mk.injEq, Option.some.injEq] at hexec
      obtain ⟨⟨rfl, rfl⟩, -, rfl⟩ := hexec
      exact ⟨rfl, hn, Or.inl ⟨_, rfl⟩⟩
    · obtain ⟨⟨rt, out⟩, ⟨h₂, a₂⟩, hscript, hrest⟩ := (Prog.run_bind_eq_some _ _).mp hexec
      obtain ⟨hreturned, hsame⟩ := (Prog.run_left_eq_some _ _ _ _).mp hscript
      obtain rfl : a₂ = a := hsame
      exact execResult_single order hn ha (hout out h₂ ⟨script, rt, rfl, hreturned⟩) hrest
  obtain ⟨rfl, hn', hres⟩ := hsingle
  rw [run_filter order lib hn' hexec] at hrun
  -- nothing to hand on, or the event itself
  have hacked : (some ([] : List (Event κ)), h₁, a₁.ack n) = (some evts, h', a') →
      Conserves a₁ evt evts a' ∧ a'.Sound := by
    intro heq
    simp only [Prod.mk.injEq, Option.some.injEq] at heq
    obtain ⟨rfl, -, rfl⟩ := heq
    exact ⟨(Cloned.nil ha).conserves_ack hn, ha.sound.ack ha.created⟩
  rcases hres with ⟨err, rfl⟩ | rfl | rfl
  · exact hacked hrun
  · exact hacked hrun
  · simp only [Prod.mk.injEq, Option.some.injEq] at hrun
    obtain ⟨rfl, -, rfl⟩ := hrun
    refine ⟨⟨fun k hk => Or.inl ?_, fun c hc hnew => absurd hc hnew⟩, ha.sound⟩
    obtain rfl : n = k := Option.some.inj (hn.symm.trans hk)
    exact ⟨⟨evt', List.mem_singleton_self _, hn'⟩, ha.unsettled⟩

/-- A script that fans out: the filter returns, and the event or the clones are lost. -/
theorem filter_loses (hn : evt.subTree = some n) (ha : a.Open n) {out : Except String Exported}
    {h₁ : Heap} (hret : Returned order lib code evt h out h₁) (hout : FansOut h₁ out) :
    ∃ evts h' a', (filter lib code evt).run (EventProg.handle order) (h, a) =
      (some evts, h', a') ∧ ¬ Conserves a evt evts a' := by
  obtain ⟨script, rt, rfl, hscript⟩ := hret
  obtain ⟨new, a₁, res, hcloned, hne, hrest, hres⟩ := execResult_fansOut order hn ha hout
  have hexec : (exec lib (.ok script) evt).run (EventProg.handle order) (h, a) =
      (some (evt, res), h₁, a₁) := by
    unfold exec
    dsimp only
    rw [Prog.run_bind_of_some _ _ (Prog.run_left_of_some _ _ _ _ hscript)]
    exact hrest
  have hfilter := run_filter order lib hn hexec
  obtain ⟨e, es, rfl⟩ := List.exists_cons_of_ne_nil hne
  rcases hres with ⟨err, rfl⟩ | rfl
  · -- the first clone is neither returned nor settled
    refine ⟨[], h₁, a₁.ack n, hfilter, fun hcons => ?_⟩
    obtain ⟨c, -, hc, hnew⟩ := hcloned.nodes e List.mem_cons_self
    rcases hcons.clones c ((AckTree.ackNode_created none).mpr hc) hnew with ⟨f, hf, -⟩ | hset
    · simp at hf
    · obtain ⟨calls, hcalls, hmem⟩ := hset
      rw [Acks.ack, hcloned.calls, List.append_assoc, List.append_cancel_left_eq] at hcalls
      rw [← hcalls] at hmem
      have hcn : c ≠ n := by
        rintro rfl
        exact hnew ha.created
      simp [hcn] at hmem
  · -- the event itself is neither returned nor settled
    refine ⟨e :: es, h₁, a₁, hfilter, fun hcons => ?_⟩
    rcases hcons.input n hn with ⟨⟨f, hf, hfn⟩, -⟩ | ⟨calls, hcalls, hmem⟩
    · obtain ⟨c, hc, -, hnew⟩ := hcloned.nodes f hf
      rw [hfn, Option.some.injEq] at hc
      exact hnew (hc ▸ ha.created)
    · rw [hcloned.calls, List.append_cancel_left_eq] at hcalls
      rw [← hcalls] at hmem
      simp at hmem

end Filter

end Js

/-! ## Both filters -/

/-- When the filter returns, it has conserved acknowledgements, and so the receiver hears of
the event. -/
def Conserving (order : Finset String → List String) (filter : EventProg ε (List (Event κ)))
    (evt : Event κ) (h : Heap) (a : Acks ε) : Prop :=
  ∀ evts h' a', filter.run (EventProg.handle order) (h, a) = (some evts, h', a') →
    a.Conserves evt evts a' ∧ a.Handled evt evts a'

/-- **Which fan-out filters conserve acknowledgements.**  For every unsettled event on a node
of an ack tree, split conserves them for every path, and js for exactly the scripts that do
not return an array beginning with an object. -/
theorem fanOut_conserving_iff (order : Finset String → List String) (lib : Libs κ)
    {evt : Event κ} {n : NodeId} (h : Heap) {a : Acks ε} (hn : evt.subTree = some n)
    (ha : a.Open n) :
    (∀ path, Conserving order (Split.filter lib path evt) evt h a) ∧
    ∀ code : Except String (Js.Script ρ), Conserving order (Js.filter lib code evt) evt h a ↔
      ∀ out h₁, Js.Returned order lib code evt h out h₁ → ¬ Js.FansOut h₁ out := by
  refine ⟨fun path evts h' a' hrun => ?_, fun code => ⟨fun hcons out h₁ hret hout => ?_,
    fun hout evts h' a' hrun => ?_⟩⟩
  · obtain ⟨hcons, hsound⟩ := Split.filter_conserves order lib path hn ha hrun
    exact ⟨hcons, hcons.handled hsound⟩
  · obtain ⟨evts, h', a', hrun, hnot⟩ := Js.filter_loses order lib hn ha hret hout
    exact hnot (hcons evts h' a' hrun).1
  · obtain ⟨hcons, hsound⟩ := Js.filter_conserves order lib hn ha hout hrun
    exact ⟨hcons, hcons.handled hsound⟩

/-- An event with two elements in its payload and empty metadata, on the root of a tree. -/
def twoElements : Event Unit :=
  { metadata := some 1, payload := .slice 0, ctx := (), subTree := some [], tid := ⟨"o", "a"⟩,
    eid := "e", userTraceId := "t", created := 0, response := 0, responseStatus := 0 }

@[inherit_doc twoElements]
def twoElementsHeap : Heap where
  maps := fun _ => ∅
  slices := fun r => if r = 0 then [.str "x", .str "y"] else []
  next := 2

/-- The script `return null`. -/
def returnNull : Js.Script Unit := fun _ _ _ => pure ((), .ok (.value .nil))

/-- The script that returns an array of one object, whose entry `metadata` is an object. -/
def returnArray : Js.Script Unit := fun _ _ _ => do
  let metadata ← HeapProg.makeMap
  let event ← HeapProg.makeMap
  HeapProg.setKey event "metadata" (.map metadata)
  let arr ← HeapProg.makeSlice [.map event]
  pure ((), .ok (.value (.slice arr)))

/-- Split hands on two clones, and a script that returns nothing acks the event. -/
theorem fanOut_conserving_twoElements :
    ((Split.filter Libs.plain "" twoElements).run (EventProg.handle fun _ => [])
      (twoElementsHeap, (⟨.newAckTree, []⟩ : Acks Unit))).1.map List.length = some 2 ∧
    Conserving (fun _ => []) (Split.filter Libs.plain "" twoElements) twoElements twoElementsHeap
      (⟨.newAckTree, []⟩ : Acks Unit) ∧
    Conserving (fun _ => []) (Js.filter Libs.plain (.ok returnNull) twoElements) twoElements
      twoElementsHeap (⟨.newAckTree, []⟩ : Acks Unit) := by
  have h := fanOut_conserving_iff (ρ := Unit) (fun _ => []) Libs.plain
    twoElementsHeap (a := (⟨.newAckTree, []⟩ : Acks Unit))
    (show twoElements.subTree = some [] from rfl) ⟨rfl, trivial, rfl⟩
  refine ⟨by decide +kernel, h.1 "", (h.2 _).mpr ?_⟩
  rintro out h₁ ⟨script, rt, hscript, hrun⟩ hout
  cases hscript
  have hnull : ((Js.runScript Libs.plain returnNull twoElements).run (Heap.handle fun _ => [])
      twoElementsHeap).1 = some ((), .ok (.value .nil)) := rfl
  rw [hrun] at hnull
  cases hnull
  exact hout

/-- A script that returns an array of one object: the clone is handed on, but the event it
was made from is neither returned nor settled. -/
theorem not_conserving_returnArray :
    ¬ Conserving (fun _ => []) (Js.filter Libs.plain (.ok returnArray) twoElements) twoElements
      twoElementsHeap (⟨.newAckTree, []⟩ : Acks Unit) := by
  intro hcons
  have hret : ∃ out h₁, Js.Returned (fun _ => []) Libs.plain (.ok returnArray) twoElements
      twoElementsHeap out h₁ ∧ Js.FansOut h₁ out :=
    ⟨_, _, ⟨returnArray, (), rfl, rfl⟩, by decide +kernel⟩
  obtain ⟨out, h₁, hret, hout⟩ := hret
  obtain ⟨evts, h', a', hrun, hnot⟩ := Js.filter_loses (ε := Unit) (fun _ => []) Libs.plain
    (a := ⟨.newAckTree, []⟩) (n := []) rfl ⟨rfl, trivial, rfl⟩ hret hout
  exact hnot (hcons evts h' a' hrun).1
