/-
# What the operations of an event reach

An operation of an event reads the data of the event and what its library calls make, and
nothing else; the writing ones write where the event's own data is.  A scope (`GoLib.Scope`)
has two sets: what may be read, and what of it may be written.  If the references of the
event are in one of them, then so is what the operations find.

`DeepCopy` is how an event gets from the first set into the second: a copy is made of new
maps and slices, and the flag of the event says that it has been made (`Event.Fit`).

This is where the behaviour of packages outside the repository enters (`Libs.Scoped`): a Go
function cannot make up a reference, so a library function reaches what it is given, and a
copy of a value shares nothing with it.
-/
import Ears.EventPrograms

open GoLib

variable {κ ε α β : Type} {A : Scope} {B : Ref → Prop}

/-! ## Event programs -/

/-- An event program that stays in its scope, as long as what it finds is in there. -/
def EventScoped (A : Scope) (Q : α → Prop) (p : EventProg ε α) : Prop :=
  p.Safe (Sum.elim (HeapOp.Uses A) fun _ => True)
    (Signature.sumRes (Answers A) fun _ _ => True) Q

namespace EventScoped

variable {Q : α → Prop} {R : β → Prop}

theorem pure {a : α} (h : Q a) : EventScoped A Q (Pure.pure a : EventProg ε α) := h

theorem panic : EventScoped A Q (Prog.panic : EventProg ε α) := trivial

/-- The rule of consequence. -/
theorem mono {Q' : α → Prop} {p : EventProg ε α} (h : EventScoped A Q p)
    (hQ : ∀ a, Q a → Q' a) : EventScoped A Q' p := Prog.Safe.mono h hQ

/-- The rule for sequences. -/
theorem bind {p : EventProg ε α} {f : α → EventProg ε β} (h : EventScoped A Q p)
    (hf : ∀ a, Q a → EventScoped A R (f a)) : EventScoped A R (p >>= f) := Prog.Safe.bind h hf

/-- A program over the heap as an event program. -/
theorem left {p : HeapProg α} (h : Scoped A Q p) : EventScoped A Q (p.left : EventProg ε α) :=
  Prog.Safe.left h

/-- Ack operations do not touch the data. -/
theorem isAcked (n : NodeId) :
    EventScoped A (fun _ => True) (EventProg.isAcked n : EventProg ε _) :=
  ⟨trivial, fun _ _ => trivial⟩

theorem newSubTree (n : NodeId) :
    EventScoped A (fun _ => True) (EventProg.newSubTree n : EventProg ε _) :=
  ⟨trivial, fun _ _ => trivial⟩

theorem ack (n : NodeId) : EventScoped A (fun _ => True) (EventProg.ack n : EventProg ε _) :=
  ⟨trivial, fun _ _ => trivial⟩

end EventScoped

/-- The references of an event are in `B`. -/
structure Event.In (B : Ref → Prop) (e : Event κ) : Prop where
  payload : e.payload.In B
  metadata : ∀ r ∈ e.metadata, B r

/-- A larger set of addresses. -/
theorem Event.In.mono {C : Ref → Prop} {e : Event κ} (h : e.In B) (hBC : ∀ r, B r → C r) :
    e.In C := ⟨h.payload.mono hBC, fun r hr => hBC r (h.metadata r hr)⟩

/-- An event whose next `DeepCopy` gives it data of its own: either its data is its own
already, or it does not count as copied. -/
def Event.Fit (A : Scope) (e : Event κ) : Prop :=
  e.In A.own ∨ (e.deepcopied = false ∧ e.In A.read)

/-- The data of such an event may be read. -/
theorem Event.Fit.in_read {e : Event κ} (h : e.Fit A) : e.In A.read := by
  rcases h with h | ⟨-, h⟩
  · exact h.mono A.own_read
  · exact h

/-- The references of all events of a list are in `B`. -/
def EventsIn (B : Ref → Prop) (evts : List (Event κ)) : Prop := ∀ e ∈ evts, e.In B

theorem eventsIn_nil : EventsIn B ([] : List (Event κ)) := fun _ he => absurd he (by simp)

theorem eventsIn_singleton {e : Event κ} (h : e.In B) : EventsIn B [e] := by
  intro e' he
  rw [List.mem_singleton.mp he]
  exact h

/-- Events of two lists. -/
theorem EventsIn.append {xs ys : List (Event κ)} (hx : EventsIn B xs) (hy : EventsIn B ys) :
    EventsIn B (xs ++ ys) := by
  intro e he
  rcases List.mem_append.mp he with he | he
  · exact hx e he
  · exact hy e he

/-- Library functions read what they are given, and a copy and a parsed value are made of new
maps and slices. -/
structure Libs.Scoped (lib : Libs κ) : Prop where
  deepCopy : ∀ A v, v.In A.read → GoLib.Scoped A (Value.In A.own) (lib.deepCopy v)
  marshal : ∀ A v, v.In A.read → GoLib.Scoped A (fun _ => True) (lib.marshal v)
  unmarshal : ∀ A buf,
    GoLib.Scoped A (fun r => ∀ v, r = .ok v → v.In A.own) (lib.unmarshal buf)
  deepEqual : ∀ A v w, v.In A.read → w.In A.read →
    GoLib.Scoped A (fun _ => True) (lib.deepEqual v w)

namespace Libs

end Libs

/-! ## Reading a path -/

namespace Event

/-- The references of the value found and of its parent are in `B`. -/
def Found.In (B : Ref → Prop) (x : Found) : Prop := x.1.In B ∧ x.2.1.In B

theorem notFound_in : Found.In B notFound := ⟨trivial, trivial⟩

/-- The metadata as a value. -/
theorem In.metadataValue {e : Event κ} (h : e.In B) : e.metadataValue.In B := by
  unfold Event.metadataValue
  split
  · rename_i r hr
    exact h.metadata r hr
  · trivial

section Read

variable [A.Reads B]

/-- Each segment without an index goes from a map to the value under a key. -/
theorem scoped_getSegments (segments : List String) :
    ∀ obj parent key, Value.In B obj → Value.In B parent →
      Scoped A (Found.In B) (getSegments segments obj parent key) := by
  induction segments with
  | nil =>
      intro obj parent key hobj hparent
      exact Scoped.pure ⟨hobj, hparent⟩
  | cons s rest ih =>
      intro obj parent key hobj hparent
      unfold getSegments
      split
      · rename_i r
        have hr : B r := hobj
        refine Scoped.bind (Scoped.getKey hr s) fun res hres => ?_
        cases res with
        | some child => exact ih child (.map r) s (hres child rfl) hobj
        | none => exact Scoped.pure ⟨trivial, hobj⟩
      · exact Scoped.pure ⟨trivial, hobj⟩

/-- The elements of a slice are looked at in order, up to the selected one. -/
theorem scoped_selectElement {curr : Value} (hcurr : curr.In B) (key : String) {a : Ref}
    (ha : B a) (k v : String) (is : List ℕ) :
    Scoped A (Found.In B) (selectElement curr key a k v is) := by
  induction is with
  | nil => exact Scoped.pure notFound_in
  | cons i is ih =>
      unfold selectElement
      refine Scoped.bind (Scoped.index ha i) fun x hx => ?_
      split
      · rename_i m
        have hm : B m := hx
        refine Scoped.bind (Scoped.getKey hm k) fun y _ => ?_
        split
        · exact Scoped.pure ⟨hx, hcurr⟩
        · exact ih
      · exact ih

/-- An element by its index or by a selector. -/
theorem scoped_elementAt {curr : Value} (hcurr : curr.In B) (key : String) {a : Ref} (ha : B a)
    (idxStr : List Char) : Scoped A (Found.In B) (elementAt curr key a idxStr) := by
  unfold elementAt
  split
  · split
    · refine Scoped.bind (Scoped.len ha) fun n _ => ?_
      exact scoped_selectElement hcurr key ha _ _ _
    · exact Scoped.pure notFound_in
  · split
    · exact Scoped.pure notFound_in
    · refine Scoped.bind (Scoped.len ha) fun n _ => ?_
      split
      · exact Scoped.pure notFound_in
      · split
        · exact Scoped.panic
        · exact Scoped.bind (Scoped.index ha _) fun x hx => Scoped.pure ⟨hx, hcurr⟩

/-- One segment with an index. -/
theorem scoped_getChildElement {curr : Value} (hcurr : curr.In B) (segment : List Char) :
    Scoped A (Found.In B) (getChildElement curr segment) := by
  unfold getChildElement
  split
  · split
    · rename_i r
      have hr : B r := hcurr
      refine Scoped.bind (Scoped.getKey hr _) fun res hres => ?_
      exact Scoped.pure ⟨Value.In.getD hres, hcurr⟩
    · exact Scoped.pure ⟨trivial, hcurr⟩
    · exact Scoped.pure notFound_in
  · dsimp only
    split
    · split
      · rename_i r _
        have hr : B r := hcurr
        refine Scoped.bind (Scoped.getKey hr _) fun res hres => ?_
        split
        · exact scoped_elementAt hcurr _ (hres _ rfl) _
        · exact Scoped.pure notFound_in
      · exact Scoped.panic
    · split
      · exact Scoped.pure notFound_in
      · exact Scoped.panic
    · exact scoped_elementAt hcurr _ hcurr _
    · exact Scoped.pure notFound_in

/-- All segments of a path with indices. -/
theorem scoped_evalSegments (segments : List (List Char)) :
    ∀ found, Found.In B found → Scoped A (Found.In B) (evalSegments segments found) := by
  induction segments with
  | nil =>
      intro found hfound
      exact Scoped.pure hfound
  | cons s rest ih =>
      intro found hfound
      unfold evalSegments
      split
      · exact Scoped.pure notFound_in
      · split
        · exact ih found hfound
        · exact Scoped.bind (scoped_getChildElement hfound.1 _) ih

/-- A path below a value finds what is reached from there. -/
theorem scoped_getPathFrom (path : String) {obj : Value} (hobj : obj.In B) :
    Scoped A (Found.In B) (getPathFrom path obj) := by
  unfold getPathFrom
  split
  · exact Scoped.pure notFound_in
  · split
    · exact Scoped.pure ⟨hobj, trivial⟩
    · dsimp only
      generalize (if hasPrefix path "." = true then PAYLOAD ++ path else path) = path'
      split
      · exact Scoped.pure notFound_in
      · split
        · exact scoped_evalSegments _ _ ⟨hobj, trivial⟩
        · exact scoped_getSegments _ _ _ _ hobj trivial

/-- `GetPathValue` finds data of the event. -/
theorem scoped_getPathValue (lib : Libs κ) {e : Event κ} (he : e.In B) (path : String) :
    Scoped A (Found.In B) (getPathValue lib e path) := by
  unfold getPathValue
  split
  · exact Scoped.pure ⟨trivial, trivial⟩
  · split
    · exact Scoped.pure ⟨trivial, trivial⟩
    · split
      · exact Scoped.pure ⟨trivial, trivial⟩
      · split
        · exact Scoped.pure ⟨trivial, trivial⟩
        · refine scoped_getPathFrom path ?_
          split
          · exact he.metadataValue
          · exact he.payload

end Read

end Event

/-! ## Writing a path -/

namespace Event.Calls

/-- The references of the outcome of `SetPathValue` are in `B`. -/
def Outcome.In (B : Ref → Prop) : Except EventError Found → Prop
  | .ok found => Found.In B found
  | .error _ => True

/-- On the way to the last segment, missing maps are made in own ones. -/
theorem scoped_descend (path : String) (createPath : Bool) (segments : List String) :
    ∀ obj parent key, Value.In A.own obj → Value.In A.own parent →
      Scoped A (Outcome.In A.own) (descend path createPath segments obj parent key) := by
  induction segments with
  | nil =>
      intro obj parent key hobj hparent
      exact Scoped.pure ⟨hobj, hparent⟩
  | cons s rest ih =>
      intro obj parent key hobj hparent
      unfold descend
      split
      · exact ih obj parent key hobj hparent
      · split
        · exact Scoped.pure ⟨hobj, hobj⟩
        · split
          · rename_i r
            have hr : A.own r := hobj
            refine Scoped.bind (Scoped.getKey hr s) fun res hres => ?_
            cases res with
            | some child => exact ih child (.map r) s (hres child rfl) hobj
            | none =>
                dsimp only
                split
                · -- `createPath`: the new map belongs to the event from here on
                  refine Scoped.bind Scoped.makeMap fun m hm => ?_
                  refine Scoped.bind (Scoped.setKey hr s (v := .map m) hm) fun _ _ => ?_
                  exact ih (.map m) (.map r) s hm hobj
                · exact Scoped.pure trivial
          · split
            · exact Scoped.panic
            · exact Scoped.pure trivial
          · exact Scoped.panic

/-- A new slice under a key of an own map. -/
theorem scoped_makeElements {r : Ref} (hr : A.own r) (name : String) (idx : ℕ) :
    Scoped A (fun _ => True) (makeElements r name idx) := by
  unfold makeElements
  split
  · exact Scoped.panic
  · refine Scoped.bind (Scoped.makeSlice ?_) fun a ha => Scoped.setKey hr name ha
    intro v hv
    rw [List.eq_of_mem_replicate hv]
    trivial

/-- An element of a slice under a key of an own map is written. -/
theorem scoped_storeElement {r : Ref} (hr : A.own r) (name : String) (idx : ℕ) {val : Value}
    (hval : val.In A.own) : Scoped A (fun _ => True) (storeElement r name idx val) := by
  unfold storeElement
  refine Scoped.bind (Scoped.getKey hr name) fun res hres => ?_
  split
  · rename_i a
    have ha : A.own a := hres _ rfl
    refine Scoped.bind (Scoped.len ha) fun n _ => ?_
    split
    · exact Scoped.setIndex ha idx hval
    · split
      · exact Scoped.panic
      · refine Scoped.bind (Scoped.elems ha _) fun vs hvs => ?_
        refine Scoped.bind (Scoped.makeSlice ?_) fun a' ha' => Scoped.setKey hr name ha'
        intro v hv
        rcases List.mem_append.mp hv with hv | hv
        · exact hvs v hv
        · rw [List.mem_singleton.mp hv]
          exact hval
  · exact Scoped.panic

/-- The same, with a slice that is made when it is missing. -/
theorem scoped_setElement {r : Ref} (hr : A.own r) (name : String) (idx : ℕ) {val : Value}
    (hval : val.In A.own) (createPath : Bool) :
    Scoped A (fun _ => True) (setElement r name idx val createPath) := by
  unfold setElement
  refine Scoped.bind (Scoped.getKey hr name) fun old _ => ?_
  split
  · exact Scoped.bind (scoped_makeElements hr name idx) fun _ _ =>
      scoped_storeElement hr name idx hval
  · exact scoped_storeElement hr name idx hval

/-- The last segment is written in an own map. -/
theorem scoped_assign {obj : Value} (hobj : obj.In A.own) (key : String) {val : Value}
    (hval : val.In A.own) (createPath : Bool) :
    Scoped A (fun _ => True) (assign obj key val createPath) := by
  unfold assign
  split
  · split
    · split
      · exact Scoped.panic
      · split
        · exact Scoped.bind (scoped_setElement hobj _ _ hval createPath) fun _ _ =>
            Scoped.pure trivial
        · exact Scoped.pure trivial
    · exact Scoped.bind (Scoped.setKey hobj key hval) fun _ _ => Scoped.pure trivial
  · split
    · split
      · exact Scoped.panic
      · split
        · exact Scoped.panic
        · exact Scoped.pure trivial
    · exact Scoped.panic
  · exact Scoped.pure trivial

/-- A path below an own value is written. -/
theorem scoped_setSegments (path : String) {obj val : Value} (hobj : obj.In A.own)
    (hval : val.In A.own) (createPath : Bool) :
    Scoped A (fun _ => True) (setSegments path obj val createPath) := by
  unfold setSegments
  refine Scoped.bind (scoped_descend path createPath _ obj .nil "" hobj trivial) fun res hres => ?_
  split
  · exact Scoped.pure trivial
  · rename_i obj' parent key
    exact Scoped.bind (scoped_assign hres.1 key hval createPath) fun _ _ => Scoped.pure trivial

variable {e : Event κ}

theorem scoped_isSettled : EventScoped A (fun _ => True) (isSettled e : EventProg ε Bool) := by
  unfold isSettled
  split
  · exact EventScoped.pure trivial
  · exact EventScoped.isAcked _

/-- `SetPayload` changes the payload of the event, or fails. -/
theorem scoped_setPayload_cases (payload : Value) :
    EventScoped A
      (fun x => (∃ err, x = (e, .error err)) ∨ x = ({ e with payload := payload }, .ok ()))
      (setPayload e payload : EventProg ε _) := by
  unfold setPayload
  refine EventScoped.bind scoped_isSettled fun b _ => ?_
  split
  · exact EventScoped.pure (Or.inl ⟨_, rfl⟩)
  · exact EventScoped.pure (Or.inr rfl)

/-- `SetMetadata` changes the metadata of the event, or fails. -/
theorem scoped_setMetadata_cases (metadata : Option Ref) :
    EventScoped A
      (fun x => (∃ err, x = (e, .error err)) ∨ x = ({ e with metadata := metadata }, .ok ()))
      (setMetadata e metadata : EventProg ε _) := by
  unfold setMetadata
  refine EventScoped.bind scoped_isSettled fun b _ => ?_
  split
  · exact EventScoped.pure (Or.inl ⟨_, rfl⟩)
  · exact EventScoped.pure (Or.inr rfl)

/-- The event keeps its references and its flag, or has the new payload. -/
theorem scoped_setPayload (he : e.In B) {payload : Value} (hp : payload.In B) :
    EventScoped A (fun x => x.1.In B ∧ x.1.deepcopied = e.deepcopied)
      (setPayload e payload : EventProg ε _) := by
  refine (scoped_setPayload_cases payload).mono fun x hx => ?_
  rcases hx with ⟨err, rfl⟩ | rfl
  · exact ⟨he, rfl⟩
  · exact ⟨⟨hp, he.metadata⟩, rfl⟩

/-- The event keeps its references and its flag, or has the new metadata. -/
theorem scoped_setMetadata (he : e.In B) {metadata : Option Ref} (hm : ∀ r ∈ metadata, B r) :
    EventScoped A (fun x => x.1.In B ∧ x.1.deepcopied = e.deepcopied)
      (setMetadata e metadata : EventProg ε _) := by
  refine (scoped_setMetadata_cases metadata).mono fun x hx => ?_
  rcases hx with ⟨err, rfl⟩ | rfl
  · exact ⟨he, rfl⟩
  · exact ⟨⟨he.payload, hm⟩, rfl⟩

/-- `SetPathValue` below a value of the event. -/
theorem scoped_setPathFrom (he : e.In A.own) (path : String) {obj val : Value}
    (hobj : obj.In A.own) (hval : val.In A.own) (createPath : Bool) :
    EventScoped A (fun x => x.1.In A.own)
      (setPathFrom e path obj val createPath : EventProg ε _) := by
  unfold setPathFrom
  dsimp only
  generalize (if (if hasPrefix path "." = true then PAYLOAD ++ path else path) = "" then PAYLOAD
    else if hasPrefix path "." = true then PAYLOAD ++ path else path) = path'
  split
  · refine EventScoped.bind (scoped_setPayload he hval) fun x hx => ?_
    split
    · exact EventScoped.pure hx.1
    · exact EventScoped.pure hx.1
  · split
    · split
      · rename_i r
        refine EventScoped.bind (scoped_setMetadata he ?_) fun x hx => EventScoped.pure hx.1
        intro r' hr'
        cases hr'
        exact hval
      · refine EventScoped.bind (scoped_setMetadata he ?_) fun x hx => EventScoped.pure hx.1
        intro r' hr'
        cases hr'
      · exact EventScoped.pure he
    · split
      · exact EventScoped.pure he
      · exact EventScoped.bind (EventScoped.left (scoped_setSegments path' hobj hval createPath))
          fun _ _ => EventScoped.pure he

/-- `SetPathValue` writes into the data of the event, which has to be its own. -/
theorem scoped_setPathValue (he : e.In A.own) (path : String) {val : Value}
    (hval : val.In A.own) (createPath : Bool) :
    EventScoped A (fun x => x.1.In A.own)
      (setPathValue e path val createPath : EventProg ε _) := by
  unfold setPathValue
  refine EventScoped.bind scoped_isSettled fun b _ => ?_
  split
  · exact EventScoped.pure he
  · split
    · split
      · rename_i r hr
        have hobj : (Value.map r).In A.own := he.metadata r hr
        exact scoped_setPathFrom he path hobj hval createPath
      · split
        · refine EventScoped.bind (EventScoped.left Scoped.makeMap) fun m hm => ?_
          have hobj : (Value.map m).In A.own := hm
          refine EventScoped.bind (scoped_setMetadata he ?_) fun x hx => ?_
          · intro r hr
            cases hr
            exact hm
          · exact scoped_setPathFrom hx.1 path hobj hval createPath
        · exact EventScoped.pure he
    · exact scoped_setPathFrom he path he.payload hval createPath

/-- A clone shares the data of its event, and does not count as copied. -/
theorem scoped_clone (he : e.In B) (ctx : κ) :
    EventScoped A (fun x => ∀ c, x = .ok c → c.In B ∧ c.deepcopied = false)
      (clone e ctx : EventProg ε _) := by
  unfold clone
  split
  · refine EventScoped.pure fun c hc => ?_
    cases hc
    exact ⟨⟨he.payload, he.metadata⟩, rfl⟩
  · refine EventScoped.bind (EventScoped.newSubTree _) fun x _ => ?_
    split
    · exact EventScoped.pure fun c hc => by cases hc
    · refine EventScoped.pure fun c hc => ?_
      cases hc
      exact ⟨⟨he.payload, he.metadata⟩, rfl⟩

theorem scoped_ack : EventScoped A (fun _ => True) (ack e : EventProg ε Unit) := by
  unfold ack
  split
  · exact EventScoped.pure trivial
  · exact EventScoped.ack _

variable {lib : Libs κ}

/-- The copy of the metadata is the event's own. -/
theorem scoped_copyMetadata (hlib : lib.Scoped) (he : e.In A.read) :
    Scoped A (fun m => ∀ r ∈ m, A.own r) (copyMetadata lib e) := by
  unfold copyMetadata
  refine Scoped.bind (hlib.deepCopy A _ he.metadataValue) fun v hv => ?_
  split
  · refine Scoped.pure fun r hr => ?_
    cases hr
    exact hv
  · exact Scoped.pure fun r hr => by cases hr
  · exact Scoped.panic

/-- What `DeepCopy` does: an event that counts as copied stays as it is, another one gets data
of its own. -/
theorem scoped_deepCopy_cases (hlib : lib.Scoped) (he : e.In A.read) :
    Scoped A (fun e' => e'.deepcopied = true ∧ ((e.deepcopied = true ∧ e' = e) ∨ e'.In A.own))
      (deepCopy lib e) := by
  unfold deepCopy
  split
  · rename_i h
    exact Scoped.pure ⟨h, Or.inl ⟨h, rfl⟩⟩
  · refine Scoped.bind (hlib.deepCopy A _ he.payload) fun payload hpayload => ?_
    have he' : Event.In A.read { e with payload := payload } :=
      ⟨Scope.own_in_read hpayload, he.metadata⟩
    refine Scoped.bind (scoped_copyMetadata hlib he') fun metadata hmetadata => ?_
    exact Scoped.pure ⟨rfl, Or.inr ⟨hpayload, hmetadata⟩⟩

/-- `DeepCopy` gives an event that does not count as copied yet data of its own. -/
theorem scoped_deepCopy (hlib : lib.Scoped) (he : e.Fit A) :
    Scoped A (Event.In A.own) (deepCopy lib e) := by
  refine (scoped_deepCopy_cases hlib he.in_read).mono fun e' h => ?_
  rcases h.2 with ⟨hcopied, rfl⟩ | hown
  · rcases he with hown | ⟨hfalse, -⟩
    · exact hown
    · rw [hcopied] at hfalse
      cases hfalse
  · exact hown

end Event.Calls
