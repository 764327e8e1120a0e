/-
# Routes do not see each other's changes

A clone shares payload and metadata with the event it is made from, and `DeepCopy` gives it
data of its own.  When the chains of the other routes copy before they write, a route finds in
the data of its event what it finds when it is the only route (`Delivery.undisturbed`).  In
such a route everything that is written is an object the route has made, and what these
objects hold are again objects the route has made; a copy is where it gets the first of them.
A route with another chain does no harm in a run in which it writes only into objects that it
has made, for example because it finds nothing to write.

`modify` writes into the data it has got without `DeepCopy`.  `unwrap` and `merge` put parts
of the old data back into an event that counts as copied, so that filters after them write
there.  Other routes see these writes.
-/
import Ears.EventDelivery

open GoLib

variable {κ ρ : Type}

/-- The operation writes, if at all, into an object of `B`. -/
def GoLib.HeapOp.WritesTo (B : Ref → Prop) : HeapOp → Prop
  | .setKey r _ _ => B r
  | .setIndex r _ _ => B r
  | _ => True

instance GoLib.HeapOp.decidableWritesTo {B : Ref → Prop} [DecidablePred B] (o : HeapOp) :
    Decidable (o.WritesTo B) :=
  match o with
  | .setKey r _ _ => inferInstanceAs (Decidable (B r))
  | .setIndex r _ _ => inferInstanceAs (Decidable (B r))
  | .getKey _ _ => isTrue trivial
  | .keys _ => isTrue trivial
  | .len _ => isTrue trivial
  | .index _ _ => isTrue trivial
  | .makeMap => isTrue trivial
  | .makeSlice _ => isTrue trivial

/-- An operation that stays in its scope writes into own objects. -/
theorem GoLib.HeapOp.Uses.writesTo {A : Scope} {o : HeapOp} (h : o.Uses A) :
    o.WritesTo A.own := by
  cases o with
  | setKey r key val => exact h.1
  | setIndex r i val => exact h.1
  | _ => trivial

/-- A route that copies before it writes: its chain does, and its sender writes only into what
it makes. -/
structure NextFn.CopiesFirst (fn : NextFn κ ρ) : Prop where
  filterers : Chain.copiesFirst false fn.filterers = true
  send : ∀ A e, e.In A.read → EventScoped A (fun _ => True) (fn.send e)

namespace Delivery

variable (d : Delivery κ ρ)

/-! ## Who made what -/

/-- The address is one of those a route gives to the objects it makes. -/
def Made (w : ℕ) (r : Ref) : Prop := d.heap.next ≤ r ∧ (Nat.unpair (r - d.heap.next)).1 = w

instance (w : ℕ) (r : Ref) : Decidable (d.Made w r) :=
  inferInstanceAs (Decidable (_ ∧ _))

/-- What a route can reach: data that came with the event, and what it made itself. -/
def Reach (w : ℕ) (r : Ref) : Prop := r < d.heap.next ∨ d.Made w r

/-- What route `j` may read, and what it owns, when route `w` is looked at.  That route owns
all that it can reach; another one may read everything and owns what it makes. -/
def scopeOf (w j : ℕ) : Scope where
  read r := j = w → d.Reach w r
  own r := if j = w then d.Reach w r else d.Made j r
  own_read r h hj := by rwa [if_pos hj] at h

/-- If the operation is one of route `j` and writes, it writes into an object that this route
has made. -/
def WritesOwn (j : ℕ) : Option ℕ → (heapSig.sum (ackSig EventError)).Op → Prop
  | some i, .inl o => i = j → o.WritesTo (d.Made j)
  | _, _ => True

instance (j : ℕ) (t : Option ℕ) (o : (heapSig.sum (ackSig EventError)).Op) :
    Decidable (d.WritesOwn j t o) :=
  match t, o with
  | some i, .inl o =>
      have := HeapOp.decidableWritesTo (B := d.Made j) o
      inferInstanceAs (Decidable (i = j → HeapOp.WritesTo (d.Made j) o))
  | some _, .inr _ => isTrue trivial
  | none, _ => isTrue trivial

/-- What is relied on outside of the filters: library functions, scripts and senders reach
what they are given, configurations hold data that was there before the delivery, and nothing
is yet at the addresses that the routes give to what they make. -/
structure Scoped : Prop where
  lib : d.lib.Scoped
  filterers : ∀ fn ∈ d.nextFns, ∀ f ∈ fn.filterers, f.In (· < d.heap.next)
  send : ∀ fn ∈ d.nextFns, ∀ B e, e.In B → EventScoped (Scope.all B) (fun _ => True) (fn.send e)
  unallocated : ∀ r, d.heap.next ≤ r → d.heap.maps r = ∅ ∧ d.heap.slices r = []

/-- The route is looked at, or copies before it writes. -/
def InScope (w j : ℕ) : Prop := j = w ∨ ∀ fn ∈ d.nextFns, fn.wid = j → fn.CopiesFirst

variable {d} {w j : ℕ} {r : Ref} {s s' : Store}

theorem made_fresh (hs : s.heap.next = d.heap.next) (w : ℕ) : d.Made w (s.fresh w) := by
  unfold Made Store.fresh
  rw [hs, Nat.add_sub_cancel_left, Nat.unpair_pair]
  exact ⟨Nat.le_add_right _ _, rfl⟩

/-- What another route has made is out of reach. -/
theorem Made.not_reach (h : d.Made j r) (hj : j ≠ w) : ¬ d.Reach w r := by
  rintro (hr | hr)
  · exact absurd hr (Nat.not_lt.mpr h.1)
  · exact hj (h.2.symm.trans hr.2)

@[simp] theorem scopeOf_own_self : (d.scopeOf w w).own = d.Reach w := by
  funext r
  exact if_pos rfl

theorem scopeOf_own_of_ne (hj : j ≠ w) : (d.scopeOf w j).own = d.Made j := by
  funext r
  exact if_neg hj

/-- The route that is looked at owns what it may read. -/
theorem scopeOf_self : d.scopeOf w w = Scope.all (d.Reach w) := by
  have hread : (d.scopeOf w w).read = d.Reach w := by
    funext r
    exact propext ⟨fun h => h rfl, fun h _ => h⟩
  unfold scopeOf
  simp [Scope.all]

/-- The next object of a route is its own. -/
theorem own_fresh (hs : s.heap.next = d.heap.next) (w j : ℕ) : (d.scopeOf w j).own (s.fresh j) := by
  by_cases hj : j = w
  · subst hj
    rw [scopeOf_own_self]
    exact Or.inr (made_fresh hs j)
  · rw [scopeOf_own_of_ne hj]
    exact made_fresh hs j

/-- Different routes own different objects. -/
theorem own_disjoint {i : ℕ} (hij : i ≠ j) (hi : (d.scopeOf w i).own r) :
    ¬ (d.scopeOf w j).own r := by
  intro hj
  by_cases hiw : i = w
  · subst hiw
    rw [scopeOf_own_self] at hi
    rw [scopeOf_own_of_ne hij.symm] at hj
    exact hj.not_reach hij.symm hi
  · rw [scopeOf_own_of_ne hiw] at hi
    by_cases hjw : j = w
    · subst hjw
      rw [scopeOf_own_self] at hj
      exact hi.not_reach hij hj
    · rw [scopeOf_own_of_ne hjw] at hj
      exact hij (hi.2.symm.trans hj.2)

/-! ## The nodes of the clones -/

/-- Different routes have different places. -/
theorem position_ne (hw : w ∈ d.nextFns.map NextFn.wid) (hj : j ≠ w) :
    d.position j ≠ d.position w := by
  obtain ⟨fn, hfn, rfl⟩ := List.mem_map.mp hw
  intro heq
  have hlt : d.position fn.wid < d.nextFns.length :=
    List.findIdx_lt_length_of_exists ⟨fn, hfn, by simp⟩
  have hlt' : d.position j < d.nextFns.length := heq ▸ hlt
  have hw : d.nextFns[d.position fn.wid].wid = fn.wid :=
    of_decide_eq_true (List.findIdx_getElem (w := hlt))
  have hj' : d.nextFns[d.position j].wid = j :=
    of_decide_eq_true (List.findIdx_getElem (w := hlt'))
  apply hj
  rw [← hj', ← hw]
  congr 2

/-- The objects that a route owns hold references to such objects only, for the route that is
looked at and for those that copy before they write. -/
structure Inv (d : Delivery κ ρ) (w : ℕ) (s : Store) : Prop where
  next : s.heap.next = d.heap.next
  holds : ∀ j, d.InScope w j → ∀ r, (d.scopeOf w j).own r →
    s.heap.HoldsIn (d.scopeOf w j).own r
  fresh : s.tree.Fresh

/-- Two stores, of a delivery and of the one to a single route, look the same to that
route. -/
structure SameView (d : Delivery κ ρ) (fn : NextFn κ ρ) (s s' : Store) : Prop where
  next : s'.heap.next = s.heap.next
  maps : ∀ r, d.Reach fn.wid r → s'.heap.maps r = s.heap.maps r
  slices : ∀ r, d.Reach fn.wid r → s'.heap.slices r = s.heap.slices r
  made : s'.made fn.wid = s.made fn.wid
  nodes : ∀ c c', d.root fn.wid = some c → (d.only fn).root fn.wid = some c' →
    s'.tree.Created c' ∧ AckTree.BelowEq c c' s.tree s'.tree

@[simp] theorem act_heap (op : AckTree.Op EventError) : (s.act op).heap = s.heap := by
  unfold Store.act
  split <;> rfl

@[simp] theorem act_made (op : AckTree.Op EventError) : (s.act op).made = s.made := by
  unfold Store.act
  split <;> rfl

theorem act_fresh (h : s.tree.Fresh) (op : AckTree.Op EventError) : (s.act op).tree.Fresh := by
  unfold Store.act
  split
  · rename_i t ht
    exact h.step ht
  · exact h

/-- The ack operations of a goroutine are calls on nodes below its own. -/
theorem handle_inr_cases (order : Finset String → List String) (w : ℕ) (root : Option NodeId)
    (o : AckOp EventError) (s : Store) :
    (Store.handle order w root (.inr o) s).2 = s ∨
      ∃ c op, root = some c ∧
        (op = .ack (o.node ++ c) ∨ (∃ err, op = .nack (o.node ++ c) err) ∨
          op = .newSubTree (o.node ++ c)) ∧
        (Store.handle order w root (.inr o) s).2 = s.act op := by
  cases root with
  | none => cases o <;> exact Or.inl rfl
  | some c =>
      cases o with
      | isAcked n => exact Or.inl rfl
      | newSubTree n => exact Or.inr ⟨c, _, rfl, Or.inr (Or.inr rfl), rfl⟩
      | ack n => exact Or.inr ⟨c, _, rfl, Or.inl rfl, rfl⟩
      | nack n err => exact Or.inr ⟨c, _, rfl, Or.inr (Or.inl ⟨err, rfl⟩), rfl⟩

/-- Ack operations keep the invariant. -/
theorem Inv.handle_inr (h : d.Inv w s) (order : Finset String → List String) (j : ℕ)
    (root : Option NodeId) (o : AckOp EventError) :
    d.Inv w (Store.handle order j root (.inr o) s).2 := by
  rcases handle_inr_cases order j root o s with heq | ⟨c, op, -, -, heq⟩
  · rw [heq]
    exact h
  · rw [heq]
    refine ⟨?_, ?_, act_fresh h.fresh op⟩
    · rw [act_heap]
      exact h.next
    · rw [act_heap]
      exact h.holds

/-- An operation leaves everything as it is that is neither written nor new. -/
theorem handleHeap_frame {B C : Ref → Prop} {o : HeapOp} (hw : o.WritesTo C)
    (hfresh : C (s.fresh j)) (hB : ∀ r, B r → ¬ C r) (order : Finset String → List String) :
    (Store.handleHeap order j o s).2.heap.next = s.heap.next ∧
      (Store.handleHeap order j o s).2.tree = s.tree ∧
      (∀ i, i ≠ j → (Store.handleHeap order j o s).2.made i = s.made i) ∧
      ∀ r, B r → (Store.handleHeap order j o s).2.heap.maps r = s.heap.maps r ∧
        (Store.handleHeap order j o s).2.heap.slices r = s.heap.slices r := by
  have hne : ∀ q, C q → ∀ r, B r → r ≠ q := by
    intro q hq r hr he
    exact hB r hr (he ▸ hq)
  cases o with
  | setKey q key val =>
      refine ⟨rfl, rfl, fun _ _ => rfl, fun r hr => ⟨?_, rfl⟩⟩
      exact Function.update_of_ne (hne q hw r hr) ..
  | setIndex q i val =>
      refine ⟨rfl, rfl, fun _ _ => rfl, fun r hr => ⟨rfl, ?_⟩⟩
      exact Function.update_of_ne (hne q hw r hr) ..
  | makeMap =>
      refine ⟨rfl, rfl, fun i hi => Function.update_of_ne hi .., fun r hr => ⟨?_, rfl⟩⟩
      exact Function.update_of_ne (hne _ hfresh r hr) ..
  | makeSlice vs =>
      refine ⟨rfl, rfl, fun i hi => Function.update_of_ne hi .., fun r hr => ⟨rfl, ?_⟩⟩
      exact Function.update_of_ne (hne _ hfresh r hr) ..
  | _ => exact ⟨rfl, rfl, fun _ _ => rfl, fun r _ => ⟨rfl, rfl⟩⟩

/-- What a route may read holds references that it may read. -/
theorem Inv.holds_read (h : d.Inv w s) (hr : (d.scopeOf w j).read r) :
    s.heap.HoldsIn (d.scopeOf w j).read r := by
  by_cases hj : j = w
  · subst hj
    rw [scopeOf_self] at hr ⊢
    have hown := h.holds j (Or.inl rfl) r
    rw [scopeOf_own_self] at hown
    exact hown hr
  · have hall : ∀ v : Value, v.In (d.scopeOf w j).read := by
      intro v
      cases v with
      | map q => exact fun he => absurd he hj
      | slice q => exact fun he => absurd he hj
      | _ => trivial
    exact ⟨fun _ v _ => hall v, fun v _ => hall v⟩

/-- A route in its scope keeps its own objects closed. -/
theorem Inv.holds_handleHeap (h : d.Inv w s) (hj : d.InScope w j) {o : HeapOp}
    (ho : o.Uses (d.scopeOf w j)) (order : Finset String → List String) :
    ∀ q, (d.scopeOf w j).own q →
      (Store.handleHeap order j o s).2.heap.HoldsIn (d.scopeOf w j).own q := by
  intro q hq
  have hold := h.holds j hj q hq
  cases o with
  | setKey r key val => exact hold.setKey r key ho.2
  | setIndex r i val => exact hold.setIndex r i ho.2
  | makeMap =>
      -- the new map is empty, the others hold what they held
      refine ⟨fun key v hv => ?_, hold.2⟩
      by_cases hqf : q = s.fresh j
      · subst hqf
        simp [Store.handleHeap, Store.makeMap, Heap.getKey] at hv
      · simp only [Store.handleHeap, Store.makeMap, Heap.getKey, Function.update_of_ne hqf] at hv
        exact hold.1 key v hv
  | makeSlice vs =>
      refine ⟨hold.1, fun v hv => ?_⟩
      by_cases hqf : q = s.fresh j
      · subst hqf
        simp only [Store.handleHeap, Store.makeSlice, Function.update_self] at hv
        exact ho v hv
      · simp only [Store.handleHeap, Store.makeSlice, Function.update_of_ne hqf] at hv
        exact hold.2 v hv
  | _ => exact hold

/-- A route in its scope finds what it may read, and own objects in its own. -/
theorem Inv.answers (h : d.Inv w s) (hj : d.InScope w j) {o : HeapOp}
    (ho : o.Uses (d.scopeOf w j)) (order : Finset String → List String) :
    Answers (d.scopeOf w j) o (Store.handleHeap order j o s).1 := by
  cases o with
  | getKey r key =>
      exact fun v hv => ⟨(h.holds_read ho).1 key v hv, fun hr => (h.holds j hj r hr).1 key v hv⟩
  | index r i =>
      show Value.In _ ((s.heap.slices r).getD i .nil) ∧
        (_ → Value.In _ ((s.heap.slices r).getD i .nil))
      rw [List.getD_eq_getElem?_getD]
      refine ⟨Value.In.getD fun v hv => ?_, fun hr => Value.In.getD fun v hv => ?_⟩
      · exact (h.holds_read ho).2 v (List.mem_of_getElem? hv)
      · exact (h.holds j hj r hr).2 v (List.mem_of_getElem? hv)
  | makeMap => exact own_fresh h.next w j
  | makeSlice vs => exact own_fresh h.next w j
  | _ => trivial

variable {fn : NextFn κ ρ}

/-- The operations of the route on maps and slices are answered alike in stores that look
the same to it, and the stores still do afterwards. -/
theorem SameView.handleHeap (hR : d.SameView fn s s') {o : HeapOp}
    (ho : o.Uses (Scope.all (d.Reach fn.wid))) (order : Finset String → List String) :
    (Store.handleHeap order fn.wid o s).1 = (Store.handleHeap order fn.wid o s').1 ∧
      d.SameView fn (Store.handleHeap order fn.wid o s).2
        (Store.handleHeap order fn.wid o s').2 := by
  have hfresh : s'.fresh fn.wid = s.fresh fn.wid := by
    unfold Store.fresh
    rw [hR.next, hR.made]
  -- what the route writes it writes in both stores
  have hupdate : ∀ {β : Type} {f f' : Ref → β} (q : Ref) (v : β),
      (∀ r, d.Reach fn.wid r → f' r = f r) →
      ∀ r, d.Reach fn.wid r → Function.update f' q v r = Function.update f q v r := by
    intro β f f' q v hf r hr
    by_cases hrq : r = q
    · rw [hrq, Function.update_self, Function.update_self]
    · rw [Function.update_of_ne hrq, Function.update_of_ne hrq, hf r hr]
  cases o with
  | getKey r key =>
      refine ⟨?_, hR⟩
      show (s.heap.maps r).lookup key = (s'.heap.maps r).lookup key
      rw [hR.maps r ho]
  | setKey r key val =>
      refine ⟨rfl, hR.next, ?_, hR.slices, hR.made, hR.nodes⟩
      show ∀ q, d.Reach fn.wid q →
        Function.update s'.heap.maps r ((s'.heap.maps r).insert key val) q = _
      rw [hR.maps r ho.1]
      exact hupdate r _ hR.maps
  | keys r =>
      refine ⟨?_, hR⟩
      show order (s.heap.maps r).keys = order (s'.heap.maps r).keys
      rw [hR.maps r ho]
  | len r =>
      refine ⟨?_, hR⟩
      show (s.heap.slices r).length = (s'.heap.slices r).length
      rw [hR.slices r ho]
  | index r i =>
      refine ⟨?_, hR⟩
      show (s.heap.slices r).getD i .nil = (s'.heap.slices r).getD i .nil
      rw [hR.slices r ho]
  | setIndex r i val =>
      refine ⟨rfl, hR.next, hR.maps, ?_, hR.made, hR.nodes⟩
      show ∀ q, d.Reach fn.wid q →
        Function.update s'.heap.slices r ((s'.heap.slices r).set i val) q = _
      rw [hR.slices r ho.1]
      exact hupdate r _ hR.slices
  | makeMap =>
      refine ⟨hfresh.symm, hR.next, ?_, hR.slices, ?_, hR.nodes⟩
      · show ∀ q, d.Reach fn.wid q → Function.update s'.heap.maps (s'.fresh fn.wid) ∅ q = _
        rw [hfresh]
        exact hupdate _ _ hR.maps
      · show Function.update s'.made fn.wid _ fn.wid = Function.update s.made fn.wid _ fn.wid
        rw [Function.update_self, Function.update_self, hR.made]
  | makeSlice vs =>
      refine ⟨hfresh.symm, hR.next, hR.maps, ?_, ?_, hR.nodes⟩
      · show ∀ q, d.Reach fn.wid q → Function.update s'.heap.slices (s'.fresh fn.wid) vs q = _
        rw [hfresh]
        exact hupdate _ _ hR.slices
      · show Function.update s'.made fn.wid _ fn.wid = Function.update s.made fn.wid _ fn.wid
        rw [Function.update_self, Function.update_self, hR.made]

/-- The name that a child gets is its number and the name of its parent. -/
theorem newSubTree_name (t : AckTree EventError) (n c : NodeId) :
    ((t.newSubTree (n ++ c)).2.map fun child => child.take (n.length + 1)) =
      if (t.node (n ++ c)).selfAcked then .error .alreadyAckedError
      else .ok (((t.node (n ++ c)).numAckExpected - 1) :: n) := by
  unfold AckTree.newSubTree
  split
  · rfl
  · simp [Except.map]

section OwnAcks

variable {i i' : ℕ} {p p' : NodeId}

theorem act_created {c : NodeId} (h : s.tree.Created c) (op : AckTree.Op EventError) :
    (s.act op).tree.Created c := by
  unfold Store.act
  split
  · rename_i t ht
    exact (AckTree.step_mono ht h).1
  · exact h

/-- A call below a node and the same call below another node, on stores that look the same
there. -/
theorem act_belowEq (h : AckTree.BelowEq (i :: p) (i' :: p') s.tree s'.tree)
    (hc : s.tree.Created (i :: p)) (hc' : s'.tree.Created (i' :: p')) (n : NodeId) :
    AckTree.BelowEq (i :: p) (i' :: p') (s.act (.ack (n ++ i :: p))).tree
        (s'.act (.ack (n ++ i' :: p'))).tree ∧
      (∀ err, AckTree.BelowEq (i :: p) (i' :: p') (s.act (.nack (n ++ i :: p) err)).tree
        (s'.act (.nack (n ++ i' :: p') err)).tree) ∧
      AckTree.BelowEq (i :: p) (i' :: p') (s.act (.newSubTree (n ++ i :: p))).tree
        (s'.act (.newSubTree (n ++ i' :: p'))).tree := by
  have hcreated := h.created hc hc' n
  unfold Store.act AckTree.step
  by_cases hn : s.tree.Created (n ++ i :: p)
  · simp only [if_pos hn, if_pos (hcreated.mp hn)]
    exact ⟨h.ackNode n, fun err => h.ackNode n, h.newSubTree n⟩
  · simp only [if_neg hn, if_neg fun hn' => hn (hcreated.mpr hn')]
    exact ⟨h, fun _ => h, h⟩

end OwnAcks

theorem SameView.of_act (hR : d.SameView fn s s') {op op' : AckTree.Op EventError}
    (h : ∀ c c', d.root fn.wid = some c → (d.only fn).root fn.wid = some c' →
      AckTree.BelowEq c c' (s.act op).tree (s'.act op').tree) :
    d.SameView fn (s.act op) (s'.act op') where
  next := by simpa using hR.next
  maps := by simpa using hR.maps
  slices := by simpa using hR.slices
  made := by simpa using hR.made
  nodes c c' hc hc' := ⟨act_created (hR.nodes c c' hc hc').1 op', h c c' hc hc'⟩

/-- The ack operations of the route are answered alike, too. -/
theorem SameView.handle_inr (hR : d.SameView fn s s')
    (hstarted : ∀ c, d.root fn.wid = some c → s.tree.Created c) (o : AckOp EventError) :
    (Store.handle d.order fn.wid (d.root fn.wid) (.inr o) s).1 =
        (Store.handle d.order fn.wid ((d.only fn).root fn.wid) (.inr o) s').1 ∧
      d.SameView fn (Store.handle d.order fn.wid (d.root fn.wid) (.inr o) s).2
        (Store.handle d.order fn.wid ((d.only fn).root fn.wid) (.inr o) s').2 := by
  cases hsub : d.evt.subTree with
  | none =>
      have hroot : d.root fn.wid = none := by simp [root, hsub]
      have hroot' : (d.only fn).root fn.wid = none := by simp [root, only, hsub]
      rw [hroot, hroot']
      cases o <;> exact ⟨rfl, hR⟩
  | some q =>
      have hroot : d.root fn.wid =
          some (((d.tree.node q).numAckExpected - 1 + d.position fn.wid) :: q) := by
        simp [root, hsub]
      have hroot' : (d.only fn).root fn.wid =
          some (((d.tree.node q).numAckExpected - 1 + (d.only fn).position fn.wid) :: q) := by
        simp [root, only, hsub]
      -- the clone has another number in the delivery to this route alone
      obtain ⟨hc', hbelow⟩ := hR.nodes _ _ hroot hroot'
      have hc := hstarted _ hroot
      have hact := act_belowEq hbelow hc hc'
      rw [hroot, hroot']
      cases o with
      | isAcked n =>
          refine ⟨?_, hR⟩
          exact congrArg AckNode.selfAcked (hbelow n)
      | newSubTree n =>
          refine ⟨?_, hR.of_act fun c c' h h' => ?_⟩
          · show (if s.tree.Created _ then _ else _) = if s'.tree.Created _ then _ else _
            rw [newSubTree_name, newSubTree_name, hbelow n]
            simp only [hbelow.created hc hc' n]
          · cases hroot.symm.trans h
            cases hroot'.symm.trans h'
            exact (hact n).2.2
      | ack n =>
          refine ⟨rfl, hR.of_act fun c c' h h' => ?_⟩
          cases hroot.symm.trans h
          cases hroot'.symm.trans h'
          exact (hact n).1
      | nack n err =>
          refine ⟨rfl, hR.of_act fun c c' h h' => ?_⟩
          cases hroot.symm.trans h
          cases hroot'.symm.trans h'
          exact (hact n).2.1 err

/-- The operations that a thread may call when one route is looked at: a route in scope stays
there, and `next` calls the event's own node only. -/
def Ok (d : Delivery κ ρ) (w : ℕ) : Option ℕ → (heapSig.sum (ackSig EventError)).Op → Prop
  | none, .inl _ => False
  | none, .inr o => o.node = []
  | some j, .inl o => d.InScope w j → o.Uses (d.scopeOf w j)
  | some _, .inr _ => True

/-- The answers that are relied on. -/
def Res (d : Delivery κ ρ) (w : ℕ) (t : Option ℕ) :
    (o : (heapSig.sum (ackSig EventError)).Op) → (heapSig.sum (ackSig EventError)).Res o → Prop
  | .inl o, res => ∀ j, t = some j → d.InScope w j → Answers (d.scopeOf w j) o res
  | .inr _, _ => True

/-- The function under the id of a route is that of the route. -/
theorem find_wid {fns : List (NextFn κ ρ)} (hwids : (fns.map NextFn.wid).Nodup)
    (hfn : fn ∈ fns) : fns.find? (fun f => f.wid = fn.wid) = some fn := by
  induction fns with
  | nil => exact absurd hfn (by simp)
  | cons f rest ih =>
      rw [List.map_cons, List.nodup_cons] at hwids
      rcases List.mem_cons.mp hfn with rfl | hmem
      · simp
      · have hne : f.wid ≠ fn.wid := fun he => hwids.1 (he ▸ List.mem_map_of_mem hmem)
        rw [List.find?_cons_of_neg (by simpa using hne)]
        exact ih hwids.2 hmem

/-- A route out of scope writes only into what it has made. -/
def Outside (d : Delivery κ ρ) (w : ℕ) (t : Option ℕ)
    (o : (heapSig.sum (ackSig EventError)).Op) : Prop :=
  ∀ j : { j // ¬ d.InScope w j }, d.WritesOwn j t o

/-- In scope or not, a route writes into own objects. -/
theorem writesTo_own {o : HeapOp} (hok : d.Ok w (some j) (.inl o))
    (hG : d.Outside w (some j) (.inl o)) : o.WritesTo (d.scopeOf w j).own := by
  by_cases hj : d.InScope w j
  · exact (hok hj).writesTo
  · have hne : j ≠ w := fun he => hj (Or.inl he)
    rw [scopeOf_own_of_ne hne]
    exact hG ⟨j, hj⟩ rfl

/-- Every thread keeps the invariant, and a route in scope finds references in its scope. -/
theorem Inv.step (h : d.Inv w s) {t : Option ℕ} {o : (heapSig.sum (ackSig EventError)).Op}
    (hok : d.Ok w t o) (hG : d.Outside w t o) :
    d.Inv w (d.machine.handle t o s).2 ∧ d.Res w t o (d.machine.handle t o s).1 := by
  cases o with
  | inr o =>
      cases t with
      | none => exact ⟨h.handle_inr d.order 0 d.evt.subTree o, trivial⟩
      | some j => exact ⟨h.handle_inr d.order j (d.root j) o, trivial⟩
  | inl o =>
      cases t with
      | none => exact absurd hok id
      | some j =>
          have hframe := fun (B : Ref → Prop) (hB : ∀ r, B r → ¬ (d.scopeOf w j).own r) =>
            handleHeap_frame (writesTo_own hok hG) (own_fresh h.next w j) hB d.order
          obtain ⟨hnext, htree, -, -⟩ := hframe (fun _ => False) fun _ hr => hr.elim
          refine ⟨⟨hnext.trans h.next, fun i hi r hr => ?_, ?_⟩, ?_⟩
          · by_cases hij : i = j
            · subst hij
              exact h.holds_handleHeap hi (hok hi) d.order r hr
            · obtain ⟨-, -, -, hkeep⟩ := hframe _ fun q hq => own_disjoint hij hq
              exact (h.holds i hi r hr).congr (hkeep r hr).1 (hkeep r hr).2
          · show (Store.handleHeap d.order j o s).2.tree.Fresh
            rw [htree]
            exact h.fresh
          · intro i hi hscope
            obtain rfl := Option.some.inj hi
            exact h.answers hscope (hok hscope) d.order

/-- What came with the event refers to nothing else, and nothing has been made yet. -/
theorem inv_start (hscope : d.Scoped) (w : ℕ) : d.Inv w d.start.state where
  next := rfl
  holds j _ r hr := by
    by_cases hj : j = w
    · subst hj
      rw [scopeOf_own_self]
      exact (d.closed r).mono fun _ hr => Or.inl hr
    · rw [scopeOf_own_of_ne hj] at hr
      obtain ⟨hmaps, hslices⟩ := hscope.unallocated r hr.1
      refine ⟨fun key v hv => ?_, fun v hv => ?_⟩
      · have hv : v ∈ (d.heap.maps r).lookup key := hv
        rw [hmaps] at hv
        cases hv
      · have hv : v ∈ d.heap.slices r := hv
        rw [hslices] at hv
        cases hv
  fresh := AckTree.fresh_of_run d.sound

/-- A map with one entry. -/
def nameHeap : Heap := Heap.empty.makeMap.1.setKey 0 "name" (.str "ears")

theorem nameHeap_closed (r : Ref) : nameHeap.HoldsIn (· < nameHeap.next) r := by
  refine Heap.HoldsIn.setKey ⟨fun key v hv => ?_, fun v hv => ?_⟩ 0 "name" trivial
  · by_cases hr : r = 0
    · subst hr
      simp [Heap.getKey, Heap.makeMap, Heap.empty] at hv
    · simp [Heap.getKey, Heap.makeMap, Heap.empty] at hv
  · simp [Heap.makeMap, Heap.empty] at hv

/-- The event `{"name": "ears"}`, at the root of a new ack tree, for a list of routes. -/
def named (fns : List (NextFn Unit Unit)) (wids : (fns.map NextFn.wid).Nodup) :
    Delivery Unit Unit where
  lib := Libs.plain
  order keys := ["id", "name"].filter (· ∈ keys)
  heap := nameHeap
  tree := .newAckTree
  evt :=
    { metadata := none, payload := .map 0, ctx := (), subTree := some [], tid := ⟨"", ""⟩,
      eid := "", userTraceId := "", created := 0, response := 0, responseStatus := 0 }
  nextFns := fns
  wids := wids
  history := []
  sound := rfl
  unacked n hn := by
    cases hn
    exact ⟨trivial, rfl⟩
  closed := nameHeap_closed
  evt_in := ⟨Nat.one_pos, fun r hr => by cases hr⟩

/-- A route with filters and the debug sender. -/
def debugRoute (wid : ℕ) (filterers : List (Filterer Unit)) : NextFn Unit Unit where
  wid := wid
  ctx := ()
  filterers := filterers
  send := Debug.send Libs.plain
  alive := 8
  turns := []

end Delivery
