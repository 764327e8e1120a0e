/-
# Settled events

The events that share one ack tree, with everything that can happen to them: calls on
any of them, the end of the context, and writes of other code to the maps and slices
behind their payloads (`EventSystem`).

`Frozen s i` says that event `i` is settled for good: `IsAcked` of its node is true and
every guarded call returns `AlreadyAckedError` and changes nothing.  Being frozen is kept
by every step.  `Ack()` freezes its event unless the tree was ended before by a nack or
by the context and the event is the root, and `Nack(err)` freezes nothing: `IsAcked`
reports the node's own ack only, and a nack does not note one.
-/
import Ears.Event

open GoLib

/-- The events on one ack tree, with the heap that holds their payloads and metadata. -/
structure EventSystem (κ ε : Type) where
  heap : Heap
  tree : AckTree ε
  events : List (Event κ)

namespace EventSystem

variable {κ ε : Type}

/-- A method call on an event. -/
inductive Call (κ ε : Type) where
  | setPayload (payload : Value)
  | setMetadata (metadata : Option Ref)
  | setPathValue (path : String) (val : Value) (createPath : Bool)
  | setContext (ctx : κ)
  | clone (ctx : κ)
  | ack
  | nack (err : ε)

/-- What a call returns: nothing, a parent and a key, the number of the new event, an
error or no return at all. -/
inductive Response where
  | done
  | path (parent : Value) (key : String)
  | event (i : ℕ)
  | stopped (stop : Stop EventError)
  deriving DecidableEq, Repr

/-- The five operations that look at `IsAcked` first. -/
def Call.Guarded : Call κ ε → Prop
  | .ack | .nack _ => False
  | _ => True

/-- The two operations that settle an event. -/
def Call.Settles : Call κ ε → Prop
  | .ack | .nack _ => True
  | _ => False

/-- The answer of a setter. -/
def Response.ofExcept : Except EventError Unit → Response
  | .ok () => .done
  | .error err => .stopped (.error err)

/-- A call on event `i`, whose fields are `e`. -/
def call (s : EventSystem κ ε) (i : ℕ) (e : Event κ) : Call κ ε → EventSystem κ ε × Response
  | .setPayload payload =>
      let (e', res) := e.setPayload s.tree payload
      ({ s with events := s.events.set i e' }, .ofExcept res)
  | .setMetadata metadata =>
      let (e', res) := e.setMetadata s.tree metadata
      ({ s with events := s.events.set i e' }, .ofExcept res)
  | .setPathValue path val createPath =>
      let (h, e', res) := e.setPathValue s.tree s.heap path val createPath
      ({ s with heap := h, events := s.events.set i e' },
        match res with
        | .ok (parent, key) => .path parent key
        | .error stop => .stopped stop)
  | .setContext ctx =>
      let (e', res) := e.setContext s.tree ctx
      ({ s with events := s.events.set i e' }, .ofExcept res)
  | .clone ctx =>
      match e.clone s.tree ctx with
      | (t, .ok child) => ({ s with tree := t, events := s.events ++ [child] }, .event s.events.length)
      | (t, .error err) => ({ s with tree := t }, .stopped (.error err))
  | .ack => ({ s with tree := e.ack s.tree }, .done)
  | .nack err => ({ s with tree := e.nack s.tree err }, .done)

/-- What can happen: a call on an event, the end of the context of the tree, or a write of
other code to the heap. -/
inductive Op (κ ε : Type) where
  | call (i : ℕ) (c : Call κ ε)
  | contextDone
  | write (h : Heap)

/-- One step; a call needs an event that exists. -/
def step (s : EventSystem κ ε) : Op κ ε → Option (EventSystem κ ε)
  | .call i c => s.events[i]?.map fun e => (s.call i e c).1
  | .contextDone => some { s with tree := s.tree.contextDone }
  | .write h => some { s with heap := h }

/-- The system right after `New` has made an event with an ack tree. -/
def Started (s : EventSystem κ ε) : Prop :=
  ∃ (env : Event.Surroundings κ) (h : Heap) (ctx : κ) (payload : Value)
    (options : List Event.EventOption) (e : Event κ),
    Event.new env h ctx payload options = .ok (s.heap, s.tree, e) ∧ e.subTree.isSome ∧
      s.events = [e]

/-- Event `i` is settled for good: its node has acked itself, and every guarded call on it
returns `AlreadyAckedError` and changes nothing. -/
def Frozen (s : EventSystem κ ε) (i : ℕ) : Prop :=
  ∃ e n, s.events[i]? = some e ∧ e.subTree = some n ∧ s.tree.isAcked n = true ∧
    ∀ c : Call κ ε, c.Guarded →
      s.call i e c = (s, .stopped (.error .alreadyAckedError))

/-- When a call of `Ack` or `Nack` settles its event: an ack does, unless the event is the
root of a tree that a nack or the end of the context has ended before it was acked; a nack
does only if the event was settled already. -/
def SettleGuard (s : EventSystem κ ε) (e : Event κ) : Call κ ε → Prop
  | .ack => e.subTree ≠ some [] ∨ s.tree.isDone = false ∨ s.tree.isAcked [] = true
  | .nack _ => e.isSettled s.tree = true
  | _ => True

/-! ## A settled event refuses every guarded call -/

variable {s s' : EventSystem κ ε} {i : ℕ} {e : Event κ} {n : NodeId}

theorem set_same (hi : s.events[i]? = some e) : { s with events := s.events.set i e } = s := by
  obtain ⟨hlt, rfl⟩ := List.getElem?_eq_some_iff.mp hi
  rw [List.set_getElem_self]

/-- Once the node of an event has acked itself, the guarded calls on the event fail and
change nothing. -/
theorem call_of_isSettled (hi : s.events[i]? = some e) (hs : e.isSettled s.tree = true)
    {c : Call κ ε} (hc : c.Guarded) :
    s.call i e c = (s, .stopped (.error .alreadyAckedError)) := by
  cases c with
  | setPayload payload =>
      simp only [call, Event.setPayload, hs, if_true, set_same hi]
      rfl
  | setMetadata metadata =>
      simp only [call, Event.setMetadata, hs, if_true, set_same hi]
      rfl
  | setPathValue path val createPath =>
      simp only [call, Event.setPathValue, hs, if_true, set_same hi]
  | setContext ctx =>
      simp only [call, Event.setContext, hs, if_true, set_same hi]
      rfl
  | clone ctx =>
      unfold Event.isSettled at hs
      split at hs
      · simp at hs
      · rename_i n hn
        have hself : (s.tree.node n).selfAcked = true := hs
        simp [call, Event.clone, hn, AckTree.newSubTree, hself]
  | ack => exact hc.elim
  | nack err => exact hc.elim

/-- An event is frozen exactly when its node has acked itself. -/
theorem frozen_iff (hi : s.events[i]? = some e) (hn : e.subTree = some n) :
    s.Frozen i ↔ s.tree.isAcked n = true := by
  have hsettled : e.isSettled s.tree = s.tree.isAcked n := by
    unfold Event.isSettled
    rw [hn]
  constructor
  · rintro ⟨e', n', hi', hn', hacked, -⟩
    obtain rfl : e = e' := Option.some.inj (hi.symm.trans hi')
    obtain rfl : n = n' := Option.some.inj (hn.symm.trans hn')
    exact hacked
  · intro hacked
    exact ⟨e, n, hi, hn, hacked, fun c hc => call_of_isSettled hi (hsettled.trans hacked) hc⟩

/-! ## What one step does to the tree and to the nodes of the events -/

/-- The tree was made by calls on it, and every event sits on one of its nodes. -/
structure Sound (s : EventSystem κ ε) : Prop where
  tree : ∃ ops, Runs.run AckTree.step AckTree.newAckTree ops = some s.tree
  node : ∀ e ∈ s.events, ∃ n, e.subTree = some n ∧ s.tree.Created n

/-- A step is at most one call on the tree; events keep their nodes, and a new event has a
node of the tree. -/
structure Moves (s s' : EventSystem κ ε) : Prop where
  tree : s'.tree = s.tree ∨ ∃ op, s.tree.step op = some s'.tree
  kept : ∀ (j : ℕ) (e : Event κ), s.events[j]? = some e →
    ∃ e', s'.events[j]? = some e' ∧ e'.subTree = e.subTree
  made : ∀ e' ∈ s'.events,
    (∃ e ∈ s.events, e.subTree = e'.subTree) ∨ ∃ n, e'.subTree = some n ∧ s'.tree.Created n

/-- A setter replaces the fields of one event and leaves its node alone. -/
theorem moves_set (hi : s.events[i]? = some e) (h : Heap) {e' : Event κ}
    (he : e'.subTree = e.subTree) :
    Moves s { s with heap := h, events := s.events.set i e' } where
  tree := Or.inl rfl
  kept := by
    intro j f hj
    rcases eq_or_ne i j with rfl | hij
    · obtain rfl : e = f := Option.some.inj (hi.symm.trans hj)
      obtain ⟨hlt, -⟩ := List.getElem?_eq_some_iff.mp hi
      exact ⟨e', by simp [hlt], he⟩
    · exact ⟨f, by rw [List.getElem?_set_ne hij]; exact hj, rfl⟩
  made := by
    intro f hf
    left
    rcases List.mem_or_eq_of_mem_set hf with hmem | rfl
    · exact ⟨f, hmem, rfl⟩
    · exact ⟨e, List.mem_of_getElem? hi, he.symm⟩

/-- A step that leaves the events alone moves the tree by a call. -/
theorem moves_tree {t : AckTree ε} (h : Heap)
    (ht : t = s.tree ∨ ∃ op, s.tree.step op = some t) :
    Moves s { s with heap := h, tree := t } where
  tree := ht
  kept := fun _ f hj => ⟨f, hj, rfl⟩
  made := fun f hf => Or.inl ⟨f, hf, rfl⟩

/-- `Clone` puts the new event on a new child of the event's node, or fails. -/
theorem moves_clone (hs : s.Sound) (hi : s.events[i]? = some e) (ctx : κ) :
    Moves s (s.call i e (.clone ctx)).1 := by
  obtain ⟨n, hn, hc⟩ := hs.node e (List.mem_of_getElem? hi)
  obtain ⟨ops, hops⟩ := hs.tree
  have hstep : s.tree.step (.newSubTree n) = some (s.tree.newSubTree n).1 := by
    simp [AckTree.step, hc]
  rcases Bool.eq_false_or_eq_true (s.tree.node n).selfAcked with hself | hself
  · have hres : (s.call i e (.clone ctx)).1 = { s with heap := s.heap, tree := s.tree } := by
      simp [call, Event.clone, hn, AckTree.newSubTree, hself]
    rw [hres]
    exact moves_tree s.heap (Or.inl rfl)
  · have hchild := hc.newChild ((AckTree.Tally.of_run hops).expected_pos n) hself
    have hres : (s.call i e (.clone ctx)).1 =
        { s with
          tree := (s.tree.newSubTree n).1
          events := s.events ++ [{ e with
            ctx := ctx
            subTree := some (((s.tree.node n).numAckExpected - 1) :: n)
            deepcopied := false }] } := by
      simp [call, Event.clone, hn, AckTree.newSubTree, hself]
    rw [hres]
    refine ⟨Or.inr ⟨_, hstep⟩, ?_, ?_⟩
    · intro j f hj
      obtain ⟨hlt, -⟩ := List.getElem?_eq_some_iff.mp hj
      exact ⟨f, (List.getElem?_append_left hlt).trans hj, rfl⟩
    · intro f hf
      rcases List.mem_append.mp hf with hmem | hmem
      · exact Or.inl ⟨f, hmem, rfl⟩
      · obtain rfl := List.mem_singleton.mp hmem
        exact Or.inr ⟨_, rfl, hchild⟩

theorem moves_call (hs : s.Sound) (hi : s.events[i]? = some e) (c : Call κ ε) :
    Moves s (s.call i e c).1 := by
  obtain ⟨n, hn, hcreated⟩ := hs.node e (List.mem_of_getElem? hi)
  cases c with
  | setPayload payload => exact moves_set hi s.heap (Event.setPayload_subTree ..)
  | setMetadata metadata => exact moves_set hi s.heap (Event.setMetadata_subTree ..)
  | setPathValue path val createPath =>
      exact moves_set hi _ (Event.setPathValue_subTree s.tree s.heap e path val createPath)
  | setContext ctx => exact moves_set hi s.heap (Event.setContext_subTree ..)
  | clone ctx => exact moves_clone hs hi ctx
  | ack =>
      refine moves_tree s.heap (Or.inr ⟨.ack n, ?_⟩)
      simp [AckTree.step, hcreated, Event.ack, hn]
  | nack err =>
      refine moves_tree s.heap (Or.inr ⟨.nack n err, ?_⟩)
      simp [AckTree.step, hcreated, Event.nack, hn]

theorem moves_step (hs : s.Sound) {op : Op κ ε} (hstep : s.step op = some s') : Moves s s' := by
  cases op with
  | call i c =>
      obtain ⟨e, hi, rfl⟩ := Option.map_eq_some_iff.mp hstep
      exact moves_call hs hi c
  | contextDone =>
      obtain rfl := Option.some.inj hstep
      exact moves_tree s.heap (Or.inr ⟨.contextDone, rfl⟩)
  | write h =>
      obtain rfl := Option.some.inj hstep
      exact moves_tree h (Or.inl rfl)

/-- The nodes of a tree stay and stay acked when a step moves it. -/
theorem Moves.mono (hm : Moves s s') (hc : s.tree.Created n) :
    s'.tree.Created n ∧ (s.tree.isAcked n = true → s'.tree.isAcked n = true) := by
  rcases hm.tree with heq | ⟨op, hop⟩
  · rw [heq]
    exact ⟨hc, id⟩
  · have hmono := AckTree.step_mono hop hc
    exact ⟨hmono.1, hmono.2.1⟩

theorem Sound.moves (hs : s.Sound) (hm : Moves s s') : s'.Sound where
  tree := by
    obtain ⟨ops, hops⟩ := hs.tree
    rcases hm.tree with heq | ⟨op, hop⟩
    · exact ⟨ops, heq ▸ hops⟩
    · refine ⟨ops ++ [op], Runs.run_append_eq_some.mpr ⟨s.tree, hops, ?_⟩⟩
      rw [Runs.run_singleton, hop]
  node := by
    intro e' he'
    rcases hm.made e' he' with ⟨e, he, hsub⟩ | hnode
    · obtain ⟨n, hn, hc⟩ := hs.node e he
      exact ⟨n, hsub ▸ hn, (hm.mono hc).1⟩
    · exact hnode

/-- An event stays frozen. -/
theorem Frozen.moves (hs : s.Sound) (hf : s.Frozen i) (hm : Moves s s') : s'.Frozen i := by
  obtain ⟨e, n, hi, hn, hacked, -⟩ := hf
  obtain ⟨n', hn', hc⟩ := hs.node e (List.mem_of_getElem? hi)
  obtain rfl : n = n' := Option.some.inj (hn.symm.trans hn')
  obtain ⟨e', hi', hsub⟩ := hm.kept i e hi
  exact (frozen_iff hi' (hsub.trans hn)).mpr ((hm.mono hc).2 hacked)

/-! ## Runs -/

theorem Started.sound (h₀ : s.Started) : s.Sound := by
  obtain ⟨env, h, ctx, payload, options, e, hnew, hsome, hev⟩ := h₀
  obtain ⟨ht, hsub⟩ := Event.new_fresh hnew
  constructor
  · exact ⟨[], by rw [Runs.run_nil, ht]⟩
  · intro f hf
    rw [hev, List.mem_singleton] at hf
    subst hf
    rcases hsub with hnone | hroot
    · rw [hnone] at hsome
      simp at hsome
    · exact ⟨[], hroot, trivial⟩

theorem Sound.run (hs : s.Sound) {ops : List (Op κ ε)} (hrun : Runs.run step s ops = some s') :
    s'.Sound :=
  Runs.run_induction (fun _ _ _ h hstep => h.moves (moves_step h hstep)) hs hrun

/-- An event stays frozen along every run. -/
theorem Frozen.run (hs : s.Sound) (hf : s.Frozen i) {ops : List (Op κ ε)}
    (hrun : Runs.run step s ops = some s') : s'.Frozen i := by
  have hinv : s'.Sound ∧ s'.Frozen i :=
    Runs.run_induction (P := fun s => s.Sound ∧ s.Frozen i)
      (fun _ _ _ h hstep => ⟨h.1.moves (moves_step h.1 hstep), h.2.moves h.1 (moves_step h.1 hstep)⟩)
      ⟨hs, hf⟩ hrun
  exact hinv.2

/-! ## Which calls settle an event -/

/-- A call of `Ack` or `Nack` leaves its node acked exactly when the guard holds. -/
theorem isAcked_settle_iff (hs : s.Sound) (hn : e.subTree = some n) {c : Call κ ε}
    (hc : c.Settles) :
    (s.call i e c).1.tree.isAcked n = true ↔ s.SettleGuard e c := by
  obtain ⟨ops, hops⟩ := hs.tree
  have htally := AckTree.Tally.of_run hops
  cases c with
  | ack =>
      have hres : (s.call i e .ack).1.tree.isAcked n =
          ((s.tree.node n).selfAcked || !(s.tree.node n).completed) := by
        show ((e.ack s.tree).node n).selfAcked = _
        rw [Event.ack, hn]
        simp [AckTree.ack_selfAcked]
      rw [hres, Bool.or_eq_true, Bool.not_eq_true', SettleGuard, hn]
      cases n with
      | nil => simp [AckTree.isDone, AckTree.isAcked, or_comm]
      | cons k p =>
          -- a child is complete only after its own ack
          have hacked := htally.acked (k :: p)
          simp only [ne_eq, Option.some.injEq, reduceCtorEq, not_false_eq_true, true_or, iff_true]
          rcases Bool.eq_false_or_eq_true (s.tree.node (k :: p)).completed with hdone | hopen
          · exact Or.inl (hacked hdone (Or.inl (List.cons_ne_nil k p))).1
          · exact Or.inr hopen
  | nack err =>
      show ((e.nack s.tree err).node n).selfAcked = true ↔ e.isSettled s.tree = true
      rw [Event.nack, Event.isSettled, hn]
      show ((s.tree.nack n err).node n).selfAcked = true ↔ (s.tree.node n).selfAcked = true
      rw [AckTree.nack_selfAcked]
  | setPayload payload => exact hc.elim
  | setMetadata metadata => exact hc.elim
  | setPathValue path val createPath => exact hc.elim
  | setContext ctx => exact hc.elim
  | clone ctx => exact hc.elim

/-- The events that a call of `Ack` or `Nack` leaves are those it found. -/
theorem call_settles_events {c : Call κ ε} (hc : c.Settles) : (s.call i e c).1.events = s.events := by
  cases c with
  | ack => rfl
  | nack err => rfl
  | setPayload payload => exact hc.elim
  | setMetadata metadata => exact hc.elim
  | setPathValue path val createPath => exact hc.elim
  | setContext ctx => exact hc.elim
  | clone ctx => exact hc.elim

/-- **When a settled event is frozen.**  After every history, a call of `Ack` or `Nack` on
an event leaves it frozen in every continuation exactly when the guard holds: `IsAcked` of
its node is then true for good, and the guarded calls return `AlreadyAckedError` and leave
the payload, the metadata and the context alone. -/
theorem frozen_after_settle_iff {s₀ : EventSystem κ ε} {ops : List (Op κ ε)} {c : Call κ ε}
    (h₀ : s₀.Started) (hrun : Runs.run step s₀ ops = some s) (hi : s.events[i]? = some e)
    (hc : c.Settles) :
    (∀ (ops' : List (Op κ ε)) (s' : EventSystem κ ε),
        Runs.run step (s.call i e c).1 ops' = some s' → s'.Frozen i) ↔
      s.SettleGuard e c := by
  have hs := h₀.sound.run hrun
  obtain ⟨n, hn, -⟩ := hs.node e (List.mem_of_getElem? hi)
  have hi' : (s.call i e c).1.events[i]? = some e := by rw [call_settles_events hc, hi]
  rw [← isAcked_settle_iff (i := i) hs hn hc, ← frozen_iff hi' hn]
  constructor
  · intro h
    exact h [] _ Runs.run_nil
  · intro hf ops' s' hrun'
    exact hf.run (hs.moves (moves_call hs hi c)) hrun'

/-- An event with an ack tree, right after `New`. -/
def freshEvent : Event Unit where
  metadata := none
  payload := .str "on"
  ctx := ()
  subTree := some []
  tid := ⟨"", ""⟩
  eid := "e1"
  userTraceId := "t1"
  created := 0
  response := 0
  responseStatus := 1

/-- The system of that event. -/
def freshSystem : EventSystem Unit String where
  heap := .empty
  tree := .newAckTree
  events := [freshEvent]

theorem freshSystem_started : freshSystem.Started :=
  ⟨⟨0, "e1", "t1", 0, 1, id⟩, .empty, (), .str "on", [.withAck true true], freshEvent, rfl, rfl, rfl⟩

/-- Acked first, the event refuses the nack, the writes and the clone that follow. -/
theorem frozen_after_ack_fresh :
    freshSystem.Started ∧
      ∀ (ops : List (Op Unit String)) (s : EventSystem Unit String),
        Runs.run step (freshSystem.call 0 freshEvent .ack).1 ops = some s → s.Frozen 0 := by
  refine ⟨freshSystem_started, ?_⟩
  exact (frozen_after_settle_iff freshSystem_started (Runs.run_nil : Runs.run step _ [] = _) rfl
    (c := .ack) trivial).mpr (Or.inr (Or.inl rfl))

/-- Nacked first, the event is not reported as acked and takes a new payload. -/
theorem nacked_event_takes_payload :
    freshSystem.Started ∧
      ¬ (freshSystem.call 0 freshEvent (.nack "boom")).1.Frozen 0 ∧
      (freshSystem.call 0 freshEvent (.nack "boom")).1.tree.isAcked [] = false ∧
      ((freshSystem.call 0 freshEvent (.nack "boom")).1.call 0 freshEvent
        (.setPayload (.str "off"))).2 = .done ∧
      ((freshSystem.call 0 freshEvent (.nack "boom")).1.call 0 freshEvent
        (.setPayload (.str "off"))).1.events.map Event.payload = [.str "off"] := by
  have hacked : (freshSystem.call 0 freshEvent (.nack "boom")).1.tree.isAcked [] = false := by
    decide
  refine ⟨freshSystem_started, ?_, hacked, by decide, by decide⟩
  rw [frozen_iff (e := freshEvent) rfl rfl, hacked]
  exact Bool.false_ne_true

end EventSystem
